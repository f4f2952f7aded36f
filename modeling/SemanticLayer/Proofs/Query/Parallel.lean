import SemanticLayer.Proofs.Project.Loan
import SemanticLayer.Proofs.Query.MergedMetrics

/-!
# Single queries side by side

Every single query is compiled in the same way from related workspaces
(`SingleQuery.compile_follows`). Where changes of the project are not followed, no metric may need a
window.
-/

namespace SemanticLayer

open SemanticLayer.Action List Result Restriction

variable {cs : Conditions} {d d' e : Design}
  {dialect : Sql.Dialect} {first r : Running} {frame : Value} {keys : Result (List String)}
  {others : List Field} {p : Project} {q : Selection} {side : Side}
  {state : List (String × Sql.Statement) × List String × Design} {w w' : Workspace} {date : Field}
  {sql : String}

variable {V : Workspace → Workspace → Prop} {S : Store → Store → Prop}

variable {c : Condition} {cumulative : List Field} {f : Field} {names : List String}
  {running : List Running} {state' : List (String × Sql.Statement) × List String × Design}

variable {design : Design}

/-! ### Conditions -/

namespace Restriction

theorem isRewriting_setCondition (side : Side) (i : Nat) (d : Definition) :
    Request.IsRewriting (·.setCondition side i d) := by
  intro r r' h
  have hsm : ∀ q : Request, (q.setCondition side i d).dimensions = q.dimensions := by
    intro q
    unfold Request.setCondition
    split <;> cases side <;> rfl
  rw [hsm, hsm, h]

theorem keep_follows [Holds V] (place : Option (Side × Nat)) (d : Definition) :
    Follows V Eq (keep place d) := by
  cases place with
  | none => exact .of_pure _
  | some e =>
    obtain ⟨side, i⟩ := e
    refine .of_modify (fun w w' hw => ?_) fun w => ?_
    · cases side
      · dsimp only
        rw [Carries.rows hw]
        rcases w.rows[i]? with _ | ⟨definition, _ | k⟩
        · exact hw
        · exact Holds.writeRows _ hw
        · exact Holds.writeRequest (isRewriting_setCondition .rows k d)
            (Holds.writeRows (w.rows.set i ⟨d, some k⟩) hw)
      · dsimp only
        rw [Carries.groups hw]
        rcases w.groups[i]? with _ | ⟨definition, _ | k⟩
        · exact hw
        · exact Holds.writeGroups _ hw hw length_set
        · exact Holds.writeRequest (isRewriting_setCondition .groups k d)
            (Holds.writeGroups (w.groups.set i ⟨d, some k⟩) hw hw length_set)
    · cases side
      · dsimp only
        rcases w.rows[i]? with _ | ⟨definition, _ | k⟩ <;> rfl
      · dsimp only
        rcases w.groups[i]? with _ | ⟨definition, _ | k⟩ <;> rfl

theorem read_follows [Holds V] (d : Design) (side : Side) (c : Condition) :
    Follows V Eq (read d side c) := by
  unfold read
  refine .result_bind fun isField => .ite (.of_pure _) <| .project_bind fun p _ => ?_
  cases d.model with
  | none => exact .of_throw _
  | some m =>
    exact (Follows.of_pure _).bind fun week => .result_bind fun zone => .ite
      ((keep_follows _ _).bind fun _ => .of_pure _)
      (.result_bind fun _ => .result_bind fun _ => .result_bind fun _ =>
        (keep_follows _ _).bind fun _ => .of_pure _)

end Restriction

/-! ### Conditions that ask for no funnel -/

def Definition.asksFunnel (d : Definition) : Bool :=
  ["converted", "dropped_off"].any (d.get "expression").isTextOf

theorem Definition.asksFunnel_set {d : Definition} {key : String} (hkey : key ≠ "expression")
    (v : Value) : (d.set key v).asksFunnel = d.asksFunnel := by
  unfold asksFunnel
  rw [get_set, if_neg hkey]

/-- None of the conditions asks for steps of a funnel. -/
def Conditions.IsFunnelFree (cs : Conditions) : Prop :=
  ∀ c ∈ cs.items, c.definition.asksFunnel = false

namespace Restriction

section

/-! What stays when a value is set or a condition becomes a boolean one is kept by reading. -/

variable {P : Definition → Prop} (hvalue : ∀ {d} v, P d → P (d.set "value" v))
  (hboolean : ∀ {d}, P d → ∀ s ∈ ["boolean_true", "boolean_false"],
    P (d.set "expression" (.text s)))
include hvalue hboolean

theorem settle_induct {warehouse : Warehouse} {d d' : Definition}
    (h : settle warehouse f d = .ok d') (hd : P d) : P d' := by
  have hyesno : ∀ {d d' : Definition}, (do
      if f.hasType "yesno" then
        let shown := (← d.need "value").plain
        let d :=
          if Text.contains shown "False" then d.set "expression" (.text "boolean_false") else d
        return if Text.contains shown "True" then d.set "expression" (.text "boolean_true") else d
      else return d : Result Definition) = .ok d' → P d → P d' := by
    intro d d' h hd
    split_ifs at h
    · obtain ⟨v, -, h⟩ := of_bind h
      cases h
      split_ifs
      · exact hboolean (hboolean hd _ (by decide)) _ (by decide)
      · exact hboolean hd _ (by decide)
      · exact hboolean hd _ (by decide)
      · exact hd
    · cases h
      exact hd
  unfold settle at h
  by_cases hbig : (warehouse == .bigquery) = true
  · rw [if_pos hbig] at h
    obtain ⟨v, -, h⟩ := of_bind h
    by_cases hmoment : isMoment v = true
    · rw [if_pos hmoment] at h
      obtain ⟨v', -, h⟩ := of_bind h
      exact hyesno h (hvalue v' hd)
    · rw [if_neg hmoment] at h
      exact hyesno h hd
  · rw [if_neg hbig] at h
    exact hyesno h hd

theorem read_induct {r : Restriction} (h : read design side c w = (.ok r, w'))
    (hc : P c.definition) :
    P r.definition := by
  have hd : P (if isTruth c.definition then c.definition.set "value" (.bool true)
      else c.definition) := by
    split_ifs
    · exact hvalue _ hc
    · exact hc
  unfold read at h
  generalize (if isTruth c.definition then c.definition.set "value" (.bool true)
    else c.definition) = d at h hd
  obtain ⟨isField, w1, -, h⟩ := of_bind h
  by_cases hfld : (!isField) = true
  · rw [if_pos hfld] at h
    obtain ⟨rfl, -⟩ := pure_eq_ok.mp h
    exact hd
  rw [if_neg hfld] at h
  obtain ⟨p, w2, -, h⟩ := of_bind h
  cases hmd : design.model with
  | none =>
    rw [hmd] at h
    cases h
  | some m =>
    rw [hmd] at h
    obtain ⟨week, w3, -, h⟩ := of_bind h
    obtain ⟨zone, w4, -, h⟩ := of_bind h
    split_ifs at h
    · obtain ⟨u, w5, -, h⟩ := of_bind h
      obtain ⟨rfl, -⟩ := pure_eq_ok.mp h
      exact hd
    · obtain ⟨name, w5, -, h⟩ := of_bind h
      obtain ⟨f, w6, -, h⟩ := of_bind h
      obtain ⟨d', w7, hsettle, h⟩ := of_bind h
      obtain ⟨u, -, rfl⟩ := of_bind_pure h
      exact settle_induct hvalue hboolean (lift_eq_ok.mp hsettle).1 hd

end

theorem isFunnel_read {r : Restriction} (h : read design side c w = (.ok r, w'))
    (hc : c.definition.asksFunnel = false) : r.isFunnel = false := by
  refine read_induct (P := fun d => d.asksFunnel = false) (fun v hd => ?_) (fun _ s hs => ?_) h hc
  · rw [Definition.asksFunnel_set (by decide), hd]
  · rcases mem_pair.mp hs with rfl | rfl
    · simp [Definition.asksFunnel, Value.isTextOf]
    · simp [Definition.asksFunnel, Value.isTextOf]

end Restriction

namespace Selection

theorem isFunnel_readConditions {access : Option String} {rs : List Restriction}
    (h : readConditions d side access cs w = (.ok rs, w')) (hcs : cs.IsFunnelFree) :
    ∀ r ∈ rs, r.isFunnel = false := by
  intro r hr
  obtain ⟨c, hc, w1, w2, hrun⟩ := exists_of_mem_mapM h hr
  refine isFunnel_read hrun ?_
  have hlit : ∀ s : String, Definition.asksFunnel [("literal", .text s)] = false := fun s => rfl
  rw [mem_append] at hc
  obtain hc | hc := hc
  · obtain ⟨s, -, rfl⟩ := mem_map.mp hc
    exact hlit s
  · cases cs with
    | absent => cases hc
    | text s =>
      obtain rfl := mem_singleton.mp hc
      exact hlit s
    | listed items => exact hcs c hc

theorem funnels_read {r : Reading} (h : q.read d w = (.ok r, w'))
    (hq : q.wheres.IsFunnelFree) : r.funnels = [] := by
  obtain ⟨p, w1, -, h⟩ := of_bind h
  obtain ⟨⟨access, _⟩, w2, -, h⟩ := of_bind h
  obtain ⟨wheres, w3, hwh, h⟩ := of_bind h
  have hno : ∀ x ∈ wheres, x.isFunnel = false := by
    unfold readWheres at hwh
    split_ifs at hwh
    · exact isFunnel_readConditions hwh hq
    · obtain ⟨rfl, -⟩ := pure_eq_ok.mp hwh
      exact fun x hx => nomatch hx
  have hfil : wheres.filter isFunnel = [] := by
    rw [filter_eq_nil_iff]
    exact fun x hx => by rw [hno x hx]; exact Bool.false_ne_true
  rw [hfil] at h
  obtain ⟨havings, w4, -, h⟩ := of_bind h
  obtain ⟨orders, w5, -, h⟩ := of_bind h
  obtain ⟨windows, -, rfl⟩ := of_bind_pure h
  rfl

end Selection

/-! ### Reading -/

theorem Design.joins_follows [Pane V] [IsPreorder Store S] (d : Design) : Follows V S d.joins :=
  .project_bind fun _ _ => .result_bind fun _ => Pane.joinGraph.bind fun _ =>
    .result_bind fun _ => .of_result _

namespace Selection

theorem readWheres_follows [Holds V] (access : Option String) :
    Follows V Eq (q.readWheres d access) := by
  unfold readWheres
  exact (Follows.mapM fun c _ => read_follows d .rows c).ite (.of_pure _)

theorem readHavings_follows [Holds V] : Follows V Eq (q.readHavings d) :=
  .guard (.of_throw _) fun _ =>
    (Follows.mapM fun c _ => read_follows d .groups c).ite (.of_pure _)

theorem read_follows [Holds V] : Follows V Eq (q.read d) :=
  .project_bind fun _ _ => .result_bind fun _ => (readWheres_follows _).bind fun _ =>
    .guard (.of_throw _) fun _ => readHavings_follows.bind fun _ =>
      .result_bind fun _ => .result_bind fun _ => .of_pure _

theorem linkPart_follows [Frame V] [IsPreorder Store S] (dialect : Sql.Dialect) (d : Design)
    (f : Restriction) (link : Field) : Follows V S (linkPart dialect d f link) :=
  .project_bind fun _ _ => .result_bind fun _ => .result_bind fun _ => .result_bind fun _ =>
    .of_pure _

end Selection

/-! ### Windows -/

namespace Action

/-- A window that a project on the first side of a relation has. -/
def HasWindow (V : Workspace → Workspace → Prop) (win : Window) : Prop :=
  ∃ (p : Store) (d : Design) (metrics : List String) (ws : List Window),
    Shows V p ∧ Selection.readWindows p d metrics = .ok ws ∧ win ∈ ws

/-- Related workspaces stay related when groupings are collected for a window and while the measure
of its table is lent. -/
structure Windowed (V : Workspace → Workspace → Prop) (S : Store → Store → Prop) : Prop where
  collect : ∀ {win : Window} i name dimensions, HasWindow V win →
    Follows V S (edit fun p => .ok (p.updateField i name (Field.collecting dimensions)))
  loan : ∀ {win : Window} {measure : Definition} {view : String} {a : Action Sql.Statement},
    HasWindow V win → measure.get "name" = .text (Field.lentName win.definition) →
    measure.get "non_additive_dimension" = .null → Follows V S a →
    Follows V S (do
      edit fun p => p.addField measure view
      let x ← a
      edit fun p => p.removeField (Field.lentName win.definition) view
      return x)

theorem Windowed.of_edit
    (hedit : ∀ change : Store → Result Store, Follows V Store.Any (edit change)) :
    Windowed V Store.Any where
  collect _ _ _ _ := hedit _
  loan _ _ _ ha := (hedit _).bind fun _ => ha.bind fun _ => (hedit _).bind fun _ => .of_pure _

/-- A condition on the project that is needed only where changes of projects are not followed. -/
def Spared (V : Workspace → Workspace → Prop) (S : Store → Store → Prop) (P : Store → Prop) :
    Prop :=
  Windowed V S ∨ ∃ p, (∀ w w', V w w' → w.project = p) ∧ P p

theorem Spared.imp {P Q : Store → Prop} (h : Spared V S P) (himp : ∀ p, P p → Q p) :
    Spared V S Q :=
  h.imp_right fun ⟨p, hp, h⟩ => ⟨p, hp, himp p h⟩

theorem Spared.imp_of_shows {P Q : Store → Prop} (h : Spared V S P) {p : Store} (hp : Shows V p)
    (himp : P p → Q p) : Spared V S Q := by
  obtain h | ⟨p', hp', h⟩ := h
  · exact .inl h
  · obtain ⟨w, w', hw, rfl⟩ := hp
    obtain rfl := hp' w w' hw
    exact .inr ⟨_, hp', himp h⟩

end Action

/-! ### Selections -/

/-- The selections and the funnels inside of a selection follow a relation if they are spared
windows. -/
structure Compilers.Follow (V : Workspace → Workspace → Prop) (S : Store → Store → Prop)
    (c : Compilers) : Prop where
  select : ∀ (q : Selection) d, (Spared V S fun p => q.IsAdditive p d.model) →
    Follows V S (c.select q d)
  funnel : ∀ (f : Funnel) d, (Spared V S fun p => p.seen.AllAdditive d.model f.names) →
    Follows V S (c.funnel f d)

variable [Veil V] [IsPreorder Store S]

namespace Selection

variable {c : Compilers}

theorem groupedTable_follows (hc : c.Follow V S) (hs : Spared V S fun _ => True) (e : Design)
    (i : Nat) (r : Restriction) : Follows V S (groupedTable c e i r) := by
  refine .project_bind fun p' _ => .result_bind fun groupBy => .result_bind fun v =>
    .result_bind fun name => ?_
  refine (Follows.mapM fun n _ => .of_result _).bind fun fields => ?_
  refine (hc.select _ _ (hs.imp fun p _ => ⟨.nil _ _, ?_⟩)).bind fun statement => ?_
  · exact fun f hf => nomatch hf
  · exact .result_bind fun f => .result_bind fun sql => .of_pure _

omit [Veil V] [IsPreorder Store S] in
theorem funnelTables_of {P : Design → Prop} {r : Reading}
    (hfn : ∀ {f t w w'}, c.funnel f d w = (.ok t, w') → P t.design) (hd : P d)
    {t : List (String × Sql.Statement) × Option (Restriction × Field) × Design}
    (h : funnelTables c q d r w = (.ok t, w')) : P t.2.2 := by
  unfold funnelTables at h
  cases hfun : r.funnels with
  | nil =>
    rw [hfun] at h
    obtain ⟨_, -, rfl⟩ := of_bind_pure h
    exact hd
  | cons f rest =>
    rw [hfun] at h
    cases hevents : q.events with
    | none =>
      rw [hevents] at h
      cases h
    | some events =>
      rw [hevents] at h
      dsimp only at h
      split_ifs at h
      · cases h
      obtain ⟨found, hfd, rfl⟩ := of_bind_pure h
      exact hfn hfd

variable (hc : c.Follow V S)

/-! A window is made with a measure that is written into the project and taken away again. -/

section

variable (hV : Windowed V S) {win : Window} (hwin : HasWindow V win)
include hV hwin

omit [Veil V] in
theorem keepGroupings_follows (dimensions : List String) :
    Follows V S (keepGroupings win dimensions) := by
  unfold keepGroupings
  split
  · exact hV.collect _ _ dimensions hwin
  · exact .of_pure _

include hc

theorem windowTable_follows (e : Design) (dimensions : List String) :
    Follows V S (windowTable c q e win dimensions) := by
  refine .project_bind fun p _ => (Follows.mapM fun _ _ => .of_result _).bind fun fields => ?_
  refine .result_bind fun date => .result_bind_of fun v hv =>
    .result_bind_of fun choice hchoice => ?_
  have hn : choice ++ "_" ++ ((Text.split (win.definition.get "name").plain ".").getLast?).getD ""
      = Field.lentName win.definition := by
    unfold Field.lentName
    rw [Definition.get_of_get? (Definition.need_eq_ok.mp hv), Value.eq_text_of_needText hchoice]
    rfl
  rw [hn]
  exact hV.loan hwin rfl rfl (hc.select _ _ (.inl hV))

theorem windowPart_follows (e : Design) : Follows V S (windowPart c q e win) :=
  .project_bind fun _ _ => .result_bind fun _ => (keepGroupings_follows hV hwin _).bind fun _ =>
    (windowTable_follows hc hV hwin e _).bind fun _ => .project_bind fun _ _ =>
      .result_bind fun _ => .of_pure _

end

variable (hq : Spared V S fun p => q.IsAdditive p d.model)
include hc hq

omit [Veil V] in
theorem funnelTables_follows (r : Reading) : Follows V S (funnelTables c q d r) := by
  unfold funnelTables
  cases r.funnels with
  | nil => exact .result_bind fun _ => .of_pure _
  | cons f rest =>
    cases hevents : q.events with
    | none => exact .of_result _
    | some events =>
      refine .guard (.of_result _) fun _ => (hc.funnel _ _ ?_).bind fun t => .of_pure _
      exact hq.imp fun p hq => hq.events events (by rw [hevents]; rfl)

theorem build_follows {r : Reading}
    (hr : Windowed V S ∨ r.windows = []) (hwins : ∀ win ∈ r.windows, HasWindow V win) :
    Follows V S (q.build c d r) := by
  refine (funnelTables_follows hc hq r).bind fun ⟨front, link, e⟩ => ?_
  refine .result_bind fun dialect => e.joins_follows.bind fun js => .project_bind fun p' _ => ?_
  refine .result_bind fun base => .result_bind fun v => .result_bind fun source =>
    .result_bind fun joins => .result_bind fun columns => .result_bind fun wheres =>
    .result_bind fun groups => .result_bind fun havings => .result_bind fun grouped => ?_
  have hs : Spared V S fun _ => True := hq.imp fun _ _ => trivial
  refine (Follows.mapM fun ⟨g, i⟩ _ => groupedTable_follows hc hs e i g).bind fun tables => ?_
  refine .result_bind_of fun windows hwindows => ?_
  obtain rfl : windows = r.windows := by
    unfold sortedAlone at hwindows
    split_ifs at hwindows
    · cases hwindows
      rfl
    · cases hwindows
  have hpts : ∀ win ∈ r.windows, Follows V S (windowPart c q e win) := by
    intro win hwin
    obtain hV | hr := hr
    · exact windowPart_follows hc hV (hwins win hwin) e
    · rw [hr] at hwin
      cases hwin
  refine (Follows.mapM hpts).bind fun windows => ?_
  refine (Follows.mapM fun ⟨f, field⟩ _ => linkPart_follows dialect e f field).bind fun linked => ?_
  exact .project_bind fun p' _ => .result_bind fun orders => .of_pure _

theorem compileWith_follows : Follows V S (q.compileWith c d) := by
  refine read_follows.of_eq.bind_of fun r w w' w1 hw hrun =>
    build_follows hc hq ?_ fun win hwin => ?_
  rotate_left
  · exact ⟨w.project, d, _, _, ⟨w, w', hw, rfl⟩, readWindows_of_read hrun, hwin⟩
  obtain hV | ⟨p, hp, hadd⟩ := hq
  · exact .inl hV
  · refine .inr (readWindows_eq_nil ?_ (readWindows_of_read hrun))
    rw [hp w w' hw]
    exact hadd.metrics

end Selection

/-! ### Funnels -/

namespace Funnel

theorem sharedComponents_follows (names : List String) :
    Follows V S (sharedComponents names) := by
  refine .project_bind fun p hp => (Follows.mapM fun n _ => ?_).bind fun all => ?_
  · exact .result_bind_of fun f hf => components_follows hp (.named hf)
  cases all with
  | nil => exact .of_result _
  | cons first rest => exact .of_pure _

theorem linkField_follows (metrics names : List String) :
    Follows V S (linkField metrics names) := by
  refine (sharedComponents_follows names).bind fun graphs => ?_
  refine ((fieldByTag_follows "customer" none graphs none).of_outcome fun _ _ =>
    fieldByTag_follows "customer" none graphs none).bind fun found => ?_
  cases found with
  | ok f => exact .of_pure _
  | error e => exact .ite (.of_throw _) (.of_throw _)

theorem stepCriteria_follows (p : Project) (d : Design) (js : List Join) (step : Value) :
    Follows V S (stepCriteria p d js step) := by
  unfold stepCriteria
  split
  · refine (Follows.mapM fun c _ => .result_bind fun definition => .result_bind fun r => ?_).bind
      fun found => .of_pure _
    refine .ite ?_ ((Follows.of_pure _).bind fun _ => .of_result _)
    exact .result_bind fun _ => .result_bind fun _ => .result_bind fun _ =>
      (Follows.of_pure _).bind fun _ => .of_result _
  · exact (read_follows d .rows _).of_eq.bind fun _ => .of_result _

theorem stepWheres_follows (f : Funnel) (p : Project) (warehouse : Warehouse) (d : Design)
    (js : List Join) (date : String) (step : Value) (number : Nat) :
    Follows V S (f.stepWheres p warehouse d js date step number) :=
  (stepCriteria_follows p d js step).bind fun _ =>
    .ite (.of_pure _) (.result_bind fun _ => .of_pure _)

theorem havingMetrics_subset {f : Funnel} (h : f.havingMetrics = .ok names) :
    names ⊆ f.havings.names := by
  intro n hn
  unfold havingMetrics at h
  split at h
  · cases h
    cases hn
  · split_ifs at h
    · cases h
      cases hn
    · cases h
  · next items hits =>
    obtain ⟨found, hfd, h⟩ := of_bind h
    cases h
    obtain ⟨c, hc, hname⟩ := exists_of_mem_mapM hfd (mem_eraseDups.mp hn)
    obtain ⟨v, hv, hname⟩ := of_bind hname
    rw [hits]
    exact Conditions.mem_names hc hv hname

section

variable {P : Design → Prop} (hput : ∀ d f, d.has f.id = false → P d → P (d.put f.id f))
include hput

omit [Veil V] [IsPreorder Store S] in
theorem enrich_induct {metrics dimensions keys : List String} (hd : P d)
    (h : enrich p d metrics dimensions = .ok (d', keys)) : P d' := by
  have hmis : ∀ d f, P d → P (if d.has f.id then d else d.put f.id f) := by
    intro d f hd
    split_ifs with hhas
    · exact hd
    · exact hput d f (by simpa using hhas) hd
  obtain ⟨d1, hd1, h⟩ := of_bind h
  have hfst : P d1 := by
    refine foldlM_induct dimensions hd1 hd ?_
    intro e n e' _ he hs
    obtain ⟨f, -, hs⟩ := of_bind hs
    cases hs
    exact hmis e f he
  refine foldlM_induct (P := fun s => P s.1) metrics h hfst ?_
  rintro ⟨e, keys⟩ n s' - he hs
  obtain ⟨f, -, hs⟩ := of_bind hs
  obtain ⟨key, -, hs⟩ := of_bind hs
  cases key with
  | none => cases hs
  | some key =>
    dsimp only at hs he
    by_cases hkey : e.has key.id = true
    · rw [if_pos hkey] at hs
      cases hs
      exact hmis e f he
    · rw [if_neg hkey] at hs
      cases hs
      exact hmis _ f (hput e key (by simpa using hkey) he)

omit [Veil V] [IsPreorder Store S] in
theorem tables_induct {select : Selection → Design → Action Sql.Statement} {f : Funnel}
    {t : FunnelTables} (hd : P d) (h : tables select f d w = (.ok t, w')) :
    P t.design := by
  iterate 8 obtain ⟨_, _, -, h⟩ := of_bind h
  obtain ⟨⟨design, keys⟩, _, hdsg, h⟩ := of_bind h
  -- the base, the joins, the steps and their union
  iterate 6 obtain ⟨_, _, -, h⟩ := of_bind h
  obtain ⟨rfl, -⟩ := pure_eq_ok.mp h
  exact enrich_induct hput hd (lift_eq_ok.mp hdsg).1

end

omit [Veil V] [IsPreorder Store S] in
theorem enrich_model {metrics dimensions keys : List String}
    (h : enrich p d metrics dimensions = .ok (d', keys)) : d'.model = d.model :=
  enrich_induct (P := fun e => e.model = d.model) (fun e f _ he => (e.model_put f.id f).trans he)
    rfl h

section

variable {select : Selection → Design → Action Sql.Statement}
  (hselect : ∀ (q : Selection) d, (Spared V S fun p => q.IsAdditive p d.model) →
    Follows V S (select q d))
  {f : Funnel} (hf : Spared V S fun p => p.seen.AllAdditive d.model f.names)
include hselect hf

theorem tables_follows : Follows V S (tables select f d) := by
  refine .result_bind fun dialect => .project_bind fun p' _ => .result_bind fun date =>
    .result_bind fun conditions => .result_bind_of fun havings hhav => ?_
  refine .result_bind fun wheres => (linkField_follows _ _).bind fun link => ?_
  refine .result_bind fun _ => .result_bind_of fun ⟨design, keys⟩ hdsg => ?_
  have hb : Spared V S fun p => p.seen.AllAdditive design.model
      (ascending (f.metrics ++ havings)) := by
    rw [enrich_model hdsg]
    refine hf.imp fun p hf => hf.of_subset fun n hn => ?_
    obtain hn | hn := mem_append.mp (mem_mergeSort.mp hn)
    · exact mem_append_left _ hn
    · exact mem_append_right _ (havingMetrics_subset hhav hn)
  refine (hselect _ _ (hb.imp fun p hadd => ⟨hadd, ?_⟩)).bind fun base =>
    design.joins_follows.bind fun js => ?_
  · exact fun _ h => nomatch h
  refine .result_bind fun ⟨columns, groups⟩ => .result_bind fun steps => ?_
  refine (Follows.mapM fun ⟨step, i⟩ _ => ?_).bind fun found => .result_bind fun union => .of_pure _
  exact (stepWheres_follows f p'.seen d.warehouse design js date.column step (i + 1)).bind fun _ =>
    .of_pure _

theorem compileWith_follows (limit : Value) : Follows V S (compileWith select f limit d) :=
  (tables_follows hselect hf).bind fun _ => .result_bind fun _ => .project_bind fun _ _ =>
    .result_bind fun _ => .of_pure _

end

end Funnel

namespace Selection

theorem compileWithin_follows (depth : Nat) (hq : Spared V S fun p => q.IsAdditive p d.model) :
    Follows V S (compileWithin depth q d) := by
  induction depth generalizing q d with
  | zero => exact .of_result _
  | succ depth ih =>
    exact compileWith_follows ⟨fun q d hq => ih hq, fun f d hf =>
      Funnel.tables_follows (fun q d hq => ih hq) hf⟩ hq

theorem compile_follows (hq : Spared V S fun p => q.IsAdditive p d.model) :
    Follows V S (q.compile d) :=
  compileWithin_follows nestingLimit hq

end Selection

/-! ### Cumulative metrics -/

namespace CumulativeQuery

variable {q : CumulativeQuery}

theorem inner_follows (q : CumulativeQuery) {metrics : List Field}
    (hadd : Spared V S fun p => p.seen.AllAdditive d.model (metrics.map Field.id))
    (dimensions : List String) (wheres : Conditions) (isUngrouped : Bool) :
    Follows V S (q.inner d metrics dimensions wheres isUngrouped) := by
  refine .guard (.of_result _) fun _ => Selection.compile_follows ?_
  rw [Design.foldl_put_id]
  exact hadd.imp fun p hadd => ⟨hadd, fun _ h => nomatch h⟩

theorem rows_follows (q : CumulativeQuery) (keys : Result (List String)) (frame : Value)
    (hadd : Spared V S fun p => p.seen.AllAdditive d.model [r.measure.id]) :
    Follows V S (q.rows d keys frame r) := by
  refine .project_bind fun p' _ => (Follows.mapM fun n _ => .of_result _).bind fun own => ?_
  refine .result_bind fun date => ?_
  have hr : ∀ dimensions, Follows V S (do
      let wheres ← (← q.whereItems).filterM fun c => do return !(← isOnDate p'.seen d keys c)
      q.inner d [r.measure] dimensions (.listed wheres) true) := fun dimensions =>
    .result_bind fun items => (Follows.filterM fun c _ => .result_bind fun _ => .of_pure _).bind
      fun wheres => inner_follows q hadd dimensions _ true
  exact .ite (.result_bind fun more => hr _) ((Follows.of_pure _).bind fun more => hr _)

theorem framedField_model {name : String} {f' : Field}
    (h : framedField p frame r name f d = .ok (f', d')) :
    d'.model = d.model := by
  unfold framedField at h
  split_ifs at h
  · obtain ⟨⟨own, view⟩, -, h⟩ := of_bind h
    obtain ⟨asked, -, h⟩ := of_bind h
    cases h
    rfl
  · cases h
    rfl

theorem conditionSql_model (h : conditionSql p frame r d = .ok (sql, d')) : d'.model = d.model := by
  obtain ⟨condition, -, h⟩ := of_bind h
  obtain ⟨names, -, h⟩ := of_bind h
  refine foldlM_induct (P := fun s => s.2.model = d.model) names h rfl ?_
  rintro ⟨sql, e⟩ n s' - he hs
  obtain ⟨f, -, hs⟩ := of_bind hs
  obtain ⟨⟨f', e'⟩, hframed, hs⟩ := of_bind hs
  obtain ⟨column, -, hs⟩ := of_bind hs
  cases hs
  exact (framedField_model hframed).trans he

theorem spineJoin_model (h : spineJoin p frame r date d = .ok (sql, d')) : d'.model = d.model := by
  unfold spineJoin at h
  split_ifs at h
  · obtain ⟨⟨condition, e⟩, hcnd, h⟩ := of_bind h
    cases h
    exact conditionSql_model hcnd
  · cases h
    rfl

theorem sums_model {dimensions dimensions' : List String} {s : Sql.Statement}
    (h : sums p q dialect keys frame first r date dimensions d
      = .ok (s, dimensions', d')) : d'.model = d.model := by
  obtain ⟨source, -, h⟩ := of_bind h
  obtain ⟨⟨on, e⟩, hj, h⟩ := of_bind h
  obtain ⟨⟨columns, groups, hasDate⟩, -, h⟩ := of_bind h
  obtain ⟨now, -, h⟩ := of_bind h
  obtain ⟨items, -, h⟩ := of_bind h
  obtain ⟨conditions, -, h⟩ := of_bind h
  obtain ⟨having, -, h⟩ := of_bind h
  cases h
  exact spineJoin_model hj

/-! The metrics whose rows are looked at are involved. -/

section

variable {m : Option Model}

theorem mentioned_involved {rs : List Reached} {found : List (Field × Bool)}
    (hf : p.Involves m names f) (hcum : f.isCumulative p = .ok true)
    (hrs : MergedQuery.measuresOf p f = .ok rs) (hfd : (rs.mapM fun r => do
      let g ← r.get
      return (g, ← g.isCumulative p)) = .ok found) :
    ∀ e ∈ found, p.Involves m names e.1 ∧ e.1.isCumulative p = .ok e.2 := by
  intro e he
  obtain ⟨reached, hrd, he⟩ := exists_of_mem_mapM hfd he
  obtain ⟨g, hg, he⟩ := of_bind he
  obtain ⟨b, hb, he⟩ := of_bind he
  cases he
  cases reached with
  | field g' =>
    cases hg
    exact ⟨.part hf (.mentioned (.inr hcum) hrs hrd), hb⟩
  | missing name => cases hg
  | unwritten => cases hg

theorem separate_involved (hf : p.Involves m names f)
    (h : separate p f = .ok (cumulative, others)) :
    (∀ g ∈ cumulative, p.Involves m names g ∧ g.isCumulative p = .ok true) ∧
      ∀ g ∈ others, p.Involves m names g := by
  obtain ⟨isCumulative, hcumulative, h⟩ := of_bind h
  cases isCumulative with
  | false =>
    cases h
    exact ⟨by simp, by simpa using hf⟩
  | true =>
    by_cases hnum : f.hasType "number" = true
    · rw [if_pos hnum] at h
      obtain ⟨sql, hsql, h⟩ := of_bind h
      obtain ⟨rs, hrs, h⟩ := of_bind h
      obtain ⟨found, hfd, h⟩ := of_bind h
      cases h
      have hpt := mentioned_involved hf hcumulative
        (bind_eq_ok.mpr ⟨sql, hsql, hrs⟩) hfd
      refine ⟨fun g hg => ?_, fun g hg => ?_⟩
      · obtain ⟨e, he, rfl⟩ := mem_map.mp hg
        obtain ⟨he, htrue⟩ := mem_filter.mp he
        obtain ⟨hinv, hcum⟩ := hpt e he
        rw [htrue] at hcum
        exact ⟨hinv, hcum⟩
      · obtain ⟨e, he, rfl⟩ := mem_map.mp hg
        exact (hpt e (mem_filter.mp he).1).1
    · rw [if_neg hnum] at h
      cases h
      exact ⟨by simpa using ⟨hf, hcumulative⟩, by simp⟩

theorem allNames_subset {all : List String} (h : q.allNames = .ok all) :
    all ⊆ q.metrics ++ q.havings.names := by
  unfold allNames at h
  split at h
  · next items hits =>
    obtain ⟨found, hfd, h⟩ := of_bind h
    cases h
    intro n hn
    obtain hn | hn := mem_append.mp hn
    · exact mem_append_left _ hn
    · obtain ⟨c, hc, hname⟩ := exists_of_mem_mapM hfd hn
      obtain ⟨v, hv, hname⟩ := of_bind hname
      rw [hits]
      exact mem_append_right _ (Conditions.mem_names hc hv hname)
  · cases h

theorem metricFields_involved (hd : d.shifts = [])
    (h : q.metricFields p d = .ok (cumulative, others)) :
    (∀ g ∈ cumulative, p.Involves d.model (q.metrics ++ q.havings.names) g ∧
      g.isCumulative p = .ok true) ∧
    ∀ g ∈ others, p.Involves d.model (q.metrics ++ q.havings.names) g := by
  obtain ⟨all, hall, h⟩ := of_bind h
  obtain ⟨found, hfd, h⟩ := of_bind h
  cases h
  have hs : ∀ e ∈ found, (∀ g ∈ e.1, p.Involves d.model (q.metrics ++ q.havings.names) g ∧
        g.isCumulative p = .ok true) ∧
      ∀ g ∈ e.2, p.Involves d.model (q.metrics ++ q.havings.names) g := by
    intro e he
    obtain ⟨n, hn, hrun⟩ := exists_of_mem_mapM hfd he
    obtain ⟨f, hf, hrun⟩ := of_bind hrun
    obtain ⟨g, hg, -, -, hshift⟩ := Design.field_eq_ok hf
    rw [← hshift hd] at hg
    exact separate_involved (.named (allNames_subset hall hn) (.inr rfl) hg) hrun
  refine ⟨fun g hg => ?_, fun g hg => ?_⟩
  · obtain ⟨e, he, hg⟩ := mem_flatMap.mp (Project.mem_of_mem_distinct hg)
    exact (hs e he).1 g hg
  · obtain ⟨e, he, hg⟩ := mem_flatMap.mp (Project.mem_of_mem_distinct hg)
    exact (hs e he).2 g hg

theorem runningOf_involved (hf : p.Involves m names f) (hcum : f.isCumulative p = .ok true)
    (h : runningOf p f = .ok r) :
    p.Involves m names r.measure := by
  obtain ⟨reached, hrd, h⟩ := of_bind h
  obtain ⟨g, hg, h⟩ := of_bind h
  cases h
  cases reached with
  | field g' =>
    cases hg
    exact .part hf (.addedUp hcum hrd)
  | missing name => cases hg
  | unwritten => cases hg

end

theorem metricStep_model (h : metricStep q dialect keys frame first state r w = (.ok state', w')) :
    state'.2.2.model = state.2.2.model := by
  obtain ⟨rows, w1, -, h⟩ := of_bind h
  obtain ⟨p, w2, -, h⟩ := of_bind h
  obtain ⟨date, w3, -, h⟩ := of_bind h
  obtain ⟨-, w4, -, h⟩ := of_bind h
  obtain ⟨⟨sums, dimensions', d'⟩, hsums, rfl⟩ := of_bind_pure h
  exact sums_model (lift_eq_ok.mp hsums).1

theorem otherTables_follows (q : CumulativeQuery)
    (hadd : Spared V S fun p => p.seen.AllAdditive d.model (others.map Field.id)) :
    Follows V S (q.otherTables d others) :=
  .ite (.of_pure _) ((inner_follows q hadd _ _ _).bind fun _ => .of_pure _)

theorem metricSteps_model
    (h : running.foldlM (metricStep q dialect keys frame first) state w = (.ok state', w')) :
    state'.2.2.model = state.2.2.model :=
  foldlM_induct (P := fun s => s.2.2.model = state.2.2.model) _ h rfl
    fun _ _ _ _ _ hs hstep => (metricStep_model hstep).trans hs

theorem addToRequest_follows (q : CumulativeQuery) (names : List String) :
    Follows V S (q.addToRequest names) := by
  have hadds : Request.IsRewriting fun r => { r with dimensions := r.dimensions ++ names } :=
    fun _ _ h => congrArg (· ++ _) h
  exact .ite (.of_request hadds) (.of_pure _)

theorem metricStep_follows
    (hadd : Spared V S fun p => p.seen.AllAdditive state.2.2.model [r.measure.id]) :
    Follows V S (metricStep q dialect keys frame first state r) := by
  obtain ⟨tables, dimensions, d⟩ := state
  exact (rows_follows { q with dimensions := dimensions } keys frame hadd).bind fun _ =>
    .project_bind fun _ _ => .result_bind fun _ => (addToRequest_follows _ _).bind fun _ =>
      .result_bind fun _ => .of_pure _

theorem metricSteps_follows
    (hadd : ∀ r ∈ running, Spared V S fun p => p.seen.AllAdditive state.2.2.model [r.measure.id]) :
    Follows V S (running.foldlM (metricStep q dialect keys frame first) state) := by
  refine Follows.foldlM_of (P := fun s => s.2.2.model = state.2.2.model) rfl ?_
    fun _ _ _ _ _ hs hstep => (metricStep_model hstep).trans hs
  intro s r hr hs
  exact metricStep_follows (by rw [hs]; exact hadd r hr)

theorem compile_follows (hd : d.shifts = [])
    (hadd : Spared V S fun p => p.seen.AllAdditive d.model (q.metrics ++ q.havings.names)) :
    Follows V S (q.compile d) := by
  refine .project_bind fun p' hp => .result_bind_of fun ⟨cumulative, others⟩ hfs => ?_
  obtain ⟨hcumulative, hoth⟩ := metricFields_involved hd hfs
  refine .result_bind fun dialect => .result_bind fun spineText => ?_
  refine (Follows.mapM fun f _ => .of_result _).bind_of fun running w w' w1 _ hrun => ?_
  have hme : ∀ r ∈ running, Spared V S fun p => p.seen.AllAdditive d.model [r.measure.id] := by
    intro r hr
    obtain ⟨f, hf, w1, w2, hs⟩ := exists_of_mem_mapM hrun hr
    obtain ⟨hinv, hcum⟩ := hcumulative f hf
    have hme := runningOf_involved hinv hcum (lift_eq_ok.mp hs).1
    refine hadd.imp_of_shows hp fun hadd => hadd.of_ids ?_
    simpa using ⟨r.measure, hme, rfl⟩
  have hoth : Spared V S fun p => p.seen.AllAdditive d.model (others.map Field.id) := by
    refine hadd.imp_of_shows hp fun hadd => hadd.of_ids fun n hn => ?_
    obtain ⟨g, hg, rfl⟩ := mem_map.mp hn
    exact ⟨g, hoth g hg, rfl⟩
  refine .result_bind fun first => .result_bind fun frame => ?_
  refine (metricSteps_follows hme).bind_of ?_
  intro ⟨tables, dimensions, d'⟩ w w' w1 _ hrun
  have hmodel : d'.model = d.model := metricSteps_model hrun
  refine (otherTables_follows { q with dimensions := dimensions } (by rw [hmodel]; exact hoth)).bind
    fun baseTables => ?_
  refine .project_bind fun p' _ => (Follows.mapM fun r _ => .of_result _).bind fun joins => ?_
  exact (Follows.mapM fun n _ => .of_result _).bind fun columns => .result_bind fun wheres =>
    .of_pure _

end CumulativeQuery

/-! ### Single queries -/

namespace SingleQuery

theorem compile_follows {q : SingleQuery}
    (hadd : Spared V S fun p => p.seen.AllAdditive q.model (q.metrics ++ q.havings.names)) :
    Follows V S q.compile := by
  refine .result_bind fun isFunnel => .result_bind fun whereNames =>
    .result_bind fun havingNames => .result_bind fun orderNames => .result_bind fun warehouse => ?_
  refine .project_bind fun p' _ => .result_bind fun ⟨fields, isUngrouped, isCumulative⟩ => ?_
  obtain ⟨hmodel, hshifts⟩ : (q.design warehouse fields).model = q.model ∧
      (q.design warehouse fields).shifts = [] :=
    Design.foldl_put (fun e : String × Field => e.1) (fun e => e.2) fields _
  rw [← hmodel] at hadd
  refine .guard (.of_throw _) fun _ => .ite ?_ ?_
  · exact (CumulativeQuery.compile_follows hshifts hadd).bind fun _ => .of_pure _
  cases isFunnel with
  | true =>
    exact (Funnel.compileWith_follows (fun _ _ => Selection.compile_follows) hadd q.limit).bind
      fun _ => .of_pure _
  | false =>
    refine (Selection.compile_follows (hadd.imp fun p hadd => ⟨?_, ?_⟩)).bind fun _ => .of_pure _
    · exact hadd.of_subset (subset_append_left _ _)
    · rintro f ⟨⟩
      exact hadd

end SingleQuery

end SemanticLayer
