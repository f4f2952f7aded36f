import SemanticLayer.Proofs.Join.Identifiers
import SemanticLayer.Proofs.Query.RowKey

/-!
# Joins that keep the rows of the first view

A plan of left joins to primary keys has one row for each row of the view that it starts from
(`joined_map_root`).  Where all identifiers are plain, the key of a design is the key of that view
(`joins_keep_rows`).
-/

namespace SemanticLayer

open SemanticLayer.Action List JoinGraph

open JoinGraph (Pair IsTree targets IsSide IsKeyJoin)

variable {g : JoinGraph} {j : Join} {views : List View} {js : List Join} {pairs : List Pair}
  {root : String}

/-! ### One partner for each row -/

namespace Tables

variable {ρ κ ν : Type} {T : Tables ρ κ}

theorem exists_partner {e : Pair} {x : Option ρ} (h : (T.linked e x).length ≤ 1) :
    ∃ y, T.partners e x = [y] := by
  unfold partners
  cases hlk : T.linked e x with
  | nil => exact ⟨none, by simp⟩
  | cons b rest =>
    rw [hlk] at h
    have hr : rest = [] := by
      rw [length_cons] at h
      exact length_eq_zero_iff.mp (by omega)
    exact ⟨some b, by simp [hr]⟩

theorem joined_map_root (htr : IsTree root pairs)
    (hone : ∀ e ∈ pairs, ∀ x ∈ T.rows e.1, (T.linked e (some x)).length ≤ 1) :
    (T.joined root pairs).map (· root) = (T.rows root).map some := by
  induction pairs using List.reverseRecOn with
  | nil =>
    unfold joined start
    simp
  | append_singleton pairs e ih =>
    obtain ⟨htr', -, hto⟩ := isTree_snoc.mp htr
    have hroot : root ≠ e.2 := fun heq => hto (by simp [heq])
    rw [← ih htr' fun e' he' => hone e' (by simp [he']), joined_snoc, leftJoin, map_flatMap]
    -- next to every row there is one row more
    have hrow : ∀ r ∈ T.joined root pairs,
        ((T.partners e (r e.1)).map (Function.update r e.2)).map (· root) = [r root] := by
      intro r hr
      have hlen : (T.linked e (r e.1)).length ≤ 1 := by
        cases hx : r e.1 with
        | none => simp [linked]
        | some x =>
          exact hone e (by simp) x (((T.mem_joined htr' r).mp hr).mem_rows hx)
      obtain ⟨y, hy⟩ := exists_partner hlen
      rw [hy, map_singleton, map_singleton, Function.update_of_ne hroot]
    rw [flatMap_congr hrow]
    exact map_eq_flatMap.symm

/-! ### Rows linked by identifiers -/

/-- The identifiers that are declared primary are unique keys: no two rows have one value. -/
def HasKeys (T : Tables ρ κ) (views : List View) (value : String → String → ρ → Option ν) : Prop :=
  ∀ view identifier text, IsSide views view identifier text →
    identifier.get "type" = .text "primary" → ((T.rows view).filterMap (value view text)).Nodup

/-- A join by two identifiers links the rows in which both have one value; null is no value. -/
def Equates (T : Tables ρ κ) (views : List View) (value : String → String → ρ → Option ν)
    (j : Join) : Prop :=
  ∀ first second a b, IsSide views j.ends.1 first a → IsSide views j.ends.2 second b →
    j.condition = .text (a ++ "=" ++ b) → ∀ x ∈ T.rows j.ends.1, ∀ y ∈ T.rows j.ends.2,
      (T.links j.ends x y = true ↔ ∃ k, value j.ends.1 a x = some k ∧ value j.ends.2 b y = some k)

theorem length_filter_le_one {f : ρ → Option ν} {rows : List ρ} (h : (rows.filterMap f).Nodup)
    {p : ρ → Bool} {k : ν} (hp : ∀ y ∈ rows, p y = true → f y = some k) :
    (rows.filter p).length ≤ 1 := by
  induction rows with
  | nil => simp
  | cons y rows ih =>
    have hr : (rows.filterMap f).Nodup := by
      cases hy : f y with
      | none => rwa [filterMap_cons_none hy] at h
      | some k' =>
        rw [filterMap_cons_some hy] at h
        exact (nodup_cons.mp h).2
    by_cases hpy : p y = true
    · -- no other row has the value
      have hk := hp y (by simp) hpy
      rw [filterMap_cons_some hk, nodup_cons] at h
      have hno : rows.filter p = [] := by
        refine filter_eq_nil_iff.mpr fun y' hy' hpy' => h.1 ?_
        exact mem_filterMap.mpr ⟨y', hy', hp y' (by simp [hy']) hpy'⟩
      simp [hpy, hno]
    · rw [filter_cons_of_neg hpy]
      exact ih hr fun y' hy' => hp y' (by simp [hy'])

theorem length_linked_le_one {value : String → String → ρ → Option ν}
    {first second : Definition} {a b : String} (hks : T.HasKeys views value)
    (hlinks : T.Equates views value j) (hfst : IsSide views j.ends.1 first a)
    (hsnd : IsSide views j.ends.2 second b) (hpri : second.get "type" = .text "primary")
    (hcnd : j.condition = .text (a ++ "=" ++ b)) {x : ρ} (hrow : x ∈ T.rows j.ends.1) :
    (T.linked j.ends (some x)).length ≤ 1 := by
  have hiff := hlinks first second a b hfst hsnd hcnd x hrow
  change ((T.rows j.ends.2).filter (T.links j.ends x)).length ≤ 1
  cases hx : value j.ends.1 a x with
  | none =>
    have hno : (T.rows j.ends.2).filter (T.links j.ends x) = [] := by
      refine filter_eq_nil_iff.mpr fun y hmem hy => ?_
      obtain ⟨k, hk, -⟩ := (hiff y hmem).mp hy
      rw [hx] at hk
      cases hk
    simp [hno]
  | some k =>
    refine length_filter_le_one (hks _ _ _ hsnd hpri) (k := k) fun y hmem hy => ?_
    obtain ⟨k', hk', hy'⟩ := (hiff y hmem).mp hy
    rw [hx] at hk'
    cases hk'
    exact hy'

end Tables

/-! ### Joins along plain arcs -/

theorem Join.definition_of_make {d : Definition} (h : Join.make d = .ok j)
    (hk : d.has "type" = true) (hrel : d.has "relationship" = true) : j.definition = d := by
  have hd : Join.orElse (Join.orElse d "type" "left_outer") "relationship" "many_to_one" = d := by
    simp [Join.orElse, hk, hrel]
  unfold Join.make at h
  dsimp only at h
  rw [hd] at h
  split at h
  · cases h
  · split_ifs at h <;> cases h <;> rfl

namespace Design

/-- A left join to at most one row, by two identifiers of which the second is a primary key. -/
structure LeadsToKey (views : List View) (j : Join) : Prop where
  kind : j.kind = .left
  relation : isRelation j .manyToOne = true ∨ isRelation j .oneToOne = true
  condition : ∃ first second a b, IsSide views j.ends.1 first a ∧ IsSide views j.ends.2 second b ∧
    second.get "type" = .text "primary" ∧ j.condition = .text (a ++ "=" ++ b)

theorem join_leadsToKey {u v : String}
    (hg : ∀ a ∈ g.graph.arcs, IsKeyJoin views a.source a.target a.data)
    (h : g.join u v = .ok j) : LeadsToKey views j := by
  obtain ⟨-, hb, htgt⟩ := join_eq_ok h
  unfold JoinGraph.join at h
  cases harc : g.graph.arc? u v with
  | none =>
    rw [harc] at h
    cases h
  | some a =>
    rw [harc] at h
    have hends : a.source = u ∧ a.target = v := by
      simpa using List.find?_some harc
    obtain ⟨hk, ⟨r, hr, hrel⟩, first, second, c, c', hfst, hsnd, hpri,
      hcnd⟩ := hg a (List.mem_of_find?_eq_some harc)
    rw [hends.1] at hfst
    rw [hends.2] at hsnd
    have hdef := Join.definition_of_make h (by simp [Definition.has_eq_isSome, hk])
      (by simp [Definition.has_eq_isSome, hrel])
    have hpa : j.ends = (u, v) := by simp [Join.ends, hb, htgt, Value.plain]
    refine ⟨?_, ?_, first, second, c, c', ?_, ?_, hpri, ?_⟩
    · simp [Join.kind, Join.property, hdef, Definition.get, hk, Sql.JoinKind.ofValue]
    · have hval : j.relationship = .text r.name := by
        simp [Join.relationship, Join.property, hdef, Definition.get, hrel]
      unfold isRelation
      rw [hval]
      cases r with
      | oneToOne => exact Or.inr rfl
      | manyToOne => exact Or.inl rfl
      | oneToMany => cases hr
      | manyToMany => cases hr
    · rwa [hpa]
    · rwa [hpa]
    · simp [Join.condition, Join.property, hdef, Definition.get, hcnd]

theorem exists_join_of_mem (h : g.joins pairs = .ok js) :
    ∀ j ∈ js, ∃ e ∈ pairs, g.join e.1 e.2 = .ok j := by
  unfold JoinGraph.joins at h
  obtain ⟨⟨found, joined⟩, hfold, hfd⟩ := Result.of_bind h
  cases hfd
  refine Result.foldlM_induct (P := fun s : List Join × List String =>
    ∀ j ∈ s.1, ∃ e ∈ pairs, g.join e.1 e.2 = .ok j) pairs hfold (by simp) ?_
  rintro ⟨found, joined⟩ ⟨u, v⟩ ⟨found', joined'⟩ he hs hstep
  obtain ⟨j, hj, hstep⟩ := Result.of_bind hstep
  cases hstep
  split_ifs
  · exact hs
  · intro j' hj'
    rcases mem_append.mp hj' with hj' | hj'
    · exact hs j' hj'
    · rw [mem_singleton] at hj'
      subst hj'
      exact ⟨(u, v), he, hj⟩

theorem rowKeyOf_of_relation {d : Design} {p : Project} (hb : d.baseOf p js = .ok root)
    (h : ∀ j ∈ js, isRelation j .manyToOne = true ∨ isRelation j .oneToOne = true) :
    d.rowKeyOf p js = d.keyOf p root := by
  have hmany : js.any (isRelation · .manyToMany) = false := by
    refine any_eq_false.mpr fun j hj hrel => ?_
    rcases h j hj with hone | hone <;> cases isRelation_unique hrel hone
  have hall : (js.all fun j => isRelation j .manyToOne || isRelation j .oneToOne) = true :=
    all_eq_true.mpr fun j hj => by simpa using h j hj
  unfold rowKeyOf
  rw [hmany, hb]
  simp [hall, bind, Except.bind]

theorem joinGraph_build {w w' : Workspace} (hvs : w.project.listViews none = .ok views)
    (hkp : ∀ kept ∈ w.joinGraph, JoinGraph.build views = .ok kept.1)
    (h : Action.joinGraph w = (.ok g, w')) : JoinGraph.build views = .ok g := by
  unfold Action.joinGraph at h
  obtain ⟨w0, w1, hget, h⟩ := of_bind h
  cases hget
  cases hgph : w.joinGraph with
  | some kept =>
    rw [hgph] at h
    obtain ⟨rfl, -⟩ := pure_eq_ok.mp h
    exact hkp kept hgph
  | none =>
    rw [hgph] at h
    obtain ⟨views', w2, hrd, h⟩ := of_bind h
    cases hvs.symm.trans (lift_eq_ok.mp hrd).1
    obtain ⟨g', hblt, h⟩ := of_lift_bind h
    obtain ⟨_, hset, rfl⟩ := of_bind_pure h
    unfold JoinGraph.Built.ofViews at hblt
    split at hblt
    · next g'' hg'' =>
      cases hblt
      exact hg''
    · cases hblt

/-- **Plain identifiers never repeat rows.**  Where no identifier is of type join and none allows
repeated rows, the joins of a design have exactly one row for each row of the view they start from,
in all tables in which primary identifiers are unique keys, and the key of the design is that
view's. -/
theorem joins_keep_rows {d : Design} {w w' : Workspace} {views : List View} {js : List Join}
    {root : String} (hviews : w.project.listViews none = .ok views)
    (hkept : ∀ kept ∈ w.joinGraph, JoinGraph.build views = .ok kept.1)
    (hplain : JoinGraph.ArePlain views) (hjoins : d.joins w = (.ok js, w'))
    (hbase : d.baseOf w.project js = .ok root) :
    (∀ j ∈ js, j.kind = .left) ∧ d.rowKey w = (d.keyOf w.project root, w') ∧
      ∀ {ρ κ ν : Type} (T : Tables ρ κ) (value : String → String → ρ → Option ν),
        T.HasKeys views value → (∀ j ∈ js, T.Equates views value j) →
          (T.joined root (js.map Join.ends)).map (· root) = (T.rows root).map some := by
  obtain ⟨required, g, pairs, hrequired, hg, -, hjs⟩ := joins_eq_ok.mp hjoins
  have harcs := build_isPlain hplain (joinGraph_build hviews hkept hg)
  have hkeys : ∀ j ∈ js, LeadsToKey views j := by
    intro j hj
    obtain ⟨e, -, he⟩ := exists_join_of_mem hjs j hj
    exact join_leadsToKey (fun a ha => (harcs a ha).2) he
  have hsome := views_ne_nil_of_baseOf hrequired hjoins hbase
  obtain ⟨root', pairs', hbase', hleads, hplan⟩ :=
    joins_isPlan hg (fun a ha => (harcs a ha).1) hrequired hsome hjoins
  cases hbase.symm.trans hbase'
  refine ⟨fun j hj => (hkeys j hj).kind, ?_, fun T value huniq hlinks => ?_⟩
  · have hproject : w'.project = w.project := by
      obtain ⟨_, rfl⟩ := joinGraph_eq_ok hg
      rfl
    have hkey := rowKeyOf_of_relation hbase fun j hj => (hkeys j hj).relation
    have hread : Action.project w' = (.ok w'.project.seen, w') := rfl
    unfold rowKey
    rw [bind_of_eq_ok hjoins, bind_of_eq_ok hread, lift_apply, hproject, hkey]
  · rw [map_ends_of_leads hleads]
    refine Tables.joined_map_root hplan.toIsTree fun e he x hx => ?_
    rw [← map_ends_of_leads hleads] at he
    obtain ⟨j, hj, rfl⟩ := mem_map.mp he
    obtain ⟨first, second, a, b, hfirst, hsecond, hprimary, hcondition⟩ := (hkeys j hj).condition
    exact Tables.length_linked_le_one huniq (hlinks j hj) hfirst hsecond hprimary hcondition hx

end Design

/-! ### Orders of customers

An order has a customer, and the identifier of the customers is primary: orders and customers are
joined from the orders. -/

namespace Orders

def identifier (type sql : String) : Definition :=
  [("name", .text "customer"), ("type", .text type), ("sql", .text sql)]

def project : Store :=
  { (default : Store) with
    views := [Tickets.entry "orders" [identifier "foreign" "orders.customer"],
      Tickets.entry "customers" [identifier "primary" "customers.id"]],
    shelves := [⟨[Tickets.key], .null⟩] }

def workspace : Workspace := { project := project }

def design : Design where
  warehouse := .snowflake
  model := none
  fields := [Tickets.field "customers" "region", Tickets.field "orders" "day"]

def data : Definition :=
  [("relationship", .text "many_to_one"), ("type", .text "left_outer"),
    ("sql_on", .text "orders.customer=customers.id"), ("weight", .int 2)]

def graph : JoinGraph :=
  .ofGraph ⟨["orders", "customers"], [⟨"orders", "customers", data⟩]⟩ []

def join : Join :=
  ⟨data ++ [("base_view_name", .text "orders"), ("join_view_name", .text "customers")]⟩

theorem exists_build : ∃ views, workspace.project.listViews none = .ok views ∧
    JoinGraph.ArePlain views ∧ JoinGraph.build views = .ok graph := by
  refine ⟨_, by cbv, by decide +kernel, ?_⟩
  -- the components are not looked at
  unfold JoinGraph.build graph
  generalize JoinGraph.ofGraph = make
  cbv

theorem joins_design : ∃ w', design.joins workspace = (.ok [join], w') := by
  obtain ⟨views, hvs, -, hbd⟩ := exists_build
  have hreq : design.requiredViews workspace.project = .ok ["customers", "orders"] := by cbv
  have hpn : graph.plan ["customers", "orders"] = .ok [("orders", "customers")] := by
    unfold graph JoinGraph.ofGraph
    generalize JoinGraph.sortedComponents = components
    cbv
  have hj : graph.joins [("orders", "customers")] = .ok [join] := rfl
  exact ⟨_, Design.joins_eq_ok.mpr
    ⟨_, _, _, hreq, joinGraph_of_build rfl hvs hbd, hpn, hj⟩⟩

end Orders

namespace Design

theorem joins_keep_rows_orders : ∃ views w', Orders.workspace.project.listViews none = .ok views ∧
    Orders.design.joins Orders.workspace = (.ok [Orders.join], w') ∧
    (∀ j ∈ [Orders.join], j.kind = .left) ∧
    Orders.design.rowKey Orders.workspace = (Orders.design.keyOf Orders.project "orders", w') ∧
      ∀ {ρ κ ν : Type} (T : Tables ρ κ) (value : String → String → ρ → Option ν),
        T.HasKeys views value → (∀ j ∈ [Orders.join], T.Equates views value j) →
          (T.joined "orders" [("orders", "customers")]).map (· "orders")
            = (T.rows "orders").map some := by
  obtain ⟨views, hviews, hplain, -⟩ := Orders.exists_build
  obtain ⟨w', hjoins⟩ := Orders.joins_design
  exact ⟨views, w', hviews, hjoins, joins_keep_rows hviews (fun _ h => nomatch h) hplain hjoins rfl⟩

end Design

end SemanticLayer
