import SemanticLayer.Proofs.Graph.Line
import SemanticLayer.Proofs.Outcome
import SemanticLayer.Proofs.Value.Definition

/-!
# The join graph that views make

The graph is built from nodes and arcs, and an arc is written only with data that carry a condition
and the weight of a relationship (`build_induct`).  So between two views there is at most one arc,
of positive weight (`build_isSound`), its ends are in the graph and it has a condition
(`build_isWhole`).
-/

namespace SemanticLayer

open Result List Definition

variable {P : Digraph String Definition → Prop} {g' : Digraph String Definition}
  {identifier d first : Definition} {other key : String} {r : Relationship} {table : References}
  {views : List View} {j : Join}

variable {data : Definition} {g : JoinGraph} {v : View}

/-! ### Adding arcs -/

namespace Digraph

variable {ν α : Type} [DecidableEq ν] {g : Digraph ν α} {update : α → α → α} {u v : ν} {data : α}

variable {a : Arc ν α}

theorem mem_addArc_ends (h : a ∈ (g.addArc update u v data).arcs) :
    a ∈ g.arcs ∨ a.source = u ∧ a.target = v ∧
      (a.data = data ∨ ∃ old, a.data = update old data) := by
  unfold addArc at h
  dsimp only at h
  split_ifs at h with hhas
  · simp only [addNode_arcs, mem_map] at h
    obtain ⟨b, hb, rfl⟩ := h
    split_ifs with hab
    · exact Or.inr ⟨hab.1, hab.2, Or.inr ⟨b.data, rfl⟩⟩
    · exact Or.inl hb
  · simp only [addNode_arcs, mem_append, mem_singleton] at h
    rcases h with h | rfl
    · exact Or.inl h
    · exact Or.inr ⟨rfl, rfl, Or.inl rfl⟩

theorem mem_addArc (h : a ∈ (g.addArc update u v data).arcs) :
    a ∈ g.arcs ∨ a.data = data ∨ ∃ old, a.data = update old data :=
  (mem_addArc_ends h).imp_right fun hnew => hnew.2.2

@[simp] theorem arc?_addNode (g : Digraph ν α) (x u v : ν) :
    (g.addNode x).arc? u v = g.arc? u v := by
  unfold arc?
  rw [addNode_arcs]

theorem ends_of_arc? (h : g.arc? u v = some a) : a.source = u ∧ a.target = v := by
  simpa using List.find?_some h

theorem arc?_addArc (g : Digraph ν α) (update : α → α → α) (u v : ν) (data : α) (u' v' : ν) :
    (g.addArc update u v data).arc? u' v' = if u = u' ∧ v = v' then
        some ⟨u, v, ((g.arc? u v).map fun a => update a.data data).getD data⟩
      else g.arc? u' v' := by
  have harcs : ((g.addNode u).addNode v).arcs = g.arcs := by simp
  have hhas : ((g.addNode u).addNode v).hasArc u v = (g.arc? u v).isSome := by simp [hasArc]
  unfold addArc
  dsimp only
  cases hold : g.arc? u v with
  | none =>
    rw [hhas, hold, if_neg (by simp), arc?, harcs, List.find?_append]
    by_cases hends : u = u' ∧ v = v'
    · obtain ⟨rfl, rfl⟩ := hends
      unfold arc? at hold
      rw [hold]
      simp
    · simp [hends, arc?]
  | some old =>
    rw [hhas, hold, if_pos (by simp), arc?, harcs, List.find?_map]
    -- writing over data moves neither end of an arc
    have hpred : ((fun a : Arc ν α => decide (a.source = u' ∧ a.target = v')) ∘ fun a : Arc ν α =>
        if a.source = u ∧ a.target = v then { a with data := update a.data data } else a)
        = fun a => decide (a.source = u' ∧ a.target = v') := by
      funext a
      by_cases ha : a.source = u ∧ a.target = v <;> simp [ha]
    rw [hpred]
    by_cases hends : u = u' ∧ v = v'
    · obtain ⟨rfl, rfl⟩ := hends
      have hold' := hold
      unfold arc? at hold'
      obtain ⟨rfl, rfl⟩ := ends_of_arc? hold
      rw [if_pos ⟨rfl, rfl⟩, hold', Option.map_some, if_pos ⟨rfl, rfl⟩]
      rfl
    · rw [if_neg hends]
      cases hfd : g.arc? u' v' with
      | none =>
        unfold arc? at hfd
        rw [hfd]
        rfl
      | some a =>
        obtain ⟨rfl, rfl⟩ := ends_of_arc? hfd
        unfold arc? at hfd
        rw [hfd, Option.map_some, if_neg (fun h => hends ⟨h.1.symm, h.2.symm⟩)]

theorem IsSimple.addArc (h : g.IsSimple) (update : α → α → α) (u v : ν) (data : α) :
    (g.addArc update u v data).IsSimple := by
  have h0 : ((g.addNode u).addNode v).IsSimple := by
    unfold IsSimple at h ⊢
    simpa using h
  unfold Digraph.addArc
  dsimp only
  split_ifs with hhas
  · -- writing over data moves neither end of an arc
    unfold IsSimple at h0 ⊢
    refine pairwise_map.mpr (h0.imp ?_)
    intro a b hab
    split_ifs <;> exact hab
  · unfold IsSimple at h0 ⊢
    refine pairwise_append.mpr ⟨h0, pairwise_singleton _ _, ?_⟩
    intro a ha b hb hab
    rw [mem_singleton] at hb
    subst hb
    exact hhas (hasArc_iff.mpr ⟨a, ha, hab⟩)

theorem IsClosed.addNode (h : g.IsClosed) (v : ν) : (g.addNode v).IsClosed := by
  intro a ha
  rw [addNode_arcs] at ha
  simp only [mem_addNode]
  exact ⟨Or.inr (h a ha).1, Or.inr (h a ha).2⟩

theorem IsClosed.addArc (h : g.IsClosed) (update : α → α → α) (u v : ν) (data : α) :
    (g.addArc update u v data).IsClosed := by
  have h0 := (h.addNode u).addNode v
  unfold Digraph.addArc
  dsimp only
  intro a ha
  split_ifs at ha ⊢
  · obtain ⟨b, hb, rfl⟩ := mem_map.mp ha
    split_ifs <;> exact h0 b hb
  · rcases mem_append.mp ha with ha | ha
    · exact h0 a ha
    · rw [mem_singleton.mp ha]
      simp [mem_addNode]

end Digraph

theorem Relationship.weight_pos (r : Relationship) : 0 < r.weight := by
  cases r <;> decide

/-! ### Joins -/

namespace Join

theorem get_orElse (d : Definition) {k : String} (value : String) (h : key ≠ k) :
    (orElse d key value).get k = d.get k := by
  unfold orElse
  split_ifs <;> simp [h]

theorem make_property (h : make d = .ok j) (ht : "type" ≠ key) (hr : "relationship" ≠ key) :
    j.property key = d.get key := by
  have hj : j.definition = orElse (orElse d "type" "left_outer") "relationship" "many_to_one" := by
    unfold make at h
    dsimp only at h
    split at h
    · cases h
    · split_ifs at h <;> cases h <;> rfl
  rw [property, hj, get_orElse _ _ hr, get_orElse _ _ ht]

theorem has_orElse (d : Definition) (key value k : String) :
    (orElse d key value).has k = (decide (key = k) || d.has k) := by
  unfold orElse
  split_ifs with h
  · by_cases hk : key = k
    · simp [← hk, h]
    · simp [hk]
  · exact has_set d key _ k

/-- A definition that says its condition in another way than by a text. -/
def IsAmbiguous (d : Definition) : Prop :=
  d.has "foreign_key" = true ∨ d.has "sql" = true ∨ (d.get "type").isTextOf "cross" = true

theorem isTextOf_orElse (d : Definition) :
    ((orElse (orElse d "type" "left_outer") "relationship" "many_to_one").get "type").isTextOf
      "cross" = (d.get "type").isTextOf "cross" := by
  rw [get_orElse _ _ (by decide)]
  unfold orElse
  split_ifs with h
  · rfl
  · rw [has_eq_isSome, Option.not_isSome_iff_eq_none] at h
    simp [Definition.get, h, Value.isTextOf]

/-- **A join between two views by a text** is made unless it says its condition in another way,
too. -/
theorem make_cases (hb : d.has "base_view_name" = true) (htgt : d.has "join_view_name" = true)
    (hon : d.has "sql_on" = true) :
    IsAmbiguous d ∧ make d = .error (.joinWithManyConditions (d.get "base_view_name")) ∨
      ¬ IsAmbiguous d ∧ ∃ j, make d = .ok j := by
  have hn : (orElse (orElse d "type" "left_outer") "relationship" "many_to_one").get
      "base_view_name" = d.get "base_view_name" := by
    rw [get_orElse _ _ (by decide), get_orElse _ _ (by decide)]
  unfold make IsAmbiguous
  dsimp only
  rw [isTextOf_orElse, hn]
  simp only [List.find?_cons, has_orElse, hb, htgt, List.find?_nil, filter_cons, hon]
  cases d.has "foreign_key" <;> cases d.has "sql" <;> cases (d.get "type").isTextOf "cross" <;>
    simp [pure, Except.pure] <;> rfl

end Join

namespace JoinGraph

/-! ### Weights -/

/-- Data of an arc that says one positive weight. -/
def IsWeighted (data : Definition) : Prop :=
  ∃ n : Nat, 0 < n ∧ (∃ v, ("weight", v) ∈ data) ∧ ∀ v, ("weight", v) ∈ data → v = .int n

theorem IsWeighted.weightOf_merge (h : IsWeighted data) (old : Definition) :
    0 < weightOf (old.merge data) := by
  obtain ⟨n, hn, hmem, hall⟩ := h
  have hget := Definition.get?_merge old data "weight" (.int n) hall (Or.inl hmem)
  simpa [weightOf, Definition.get, hget] using hn

theorem IsWeighted.weightOf_pos (h : IsWeighted data) : 0 < weightOf data := by
  obtain ⟨n, hn, ⟨v, hv⟩, hall⟩ := h
  obtain ⟨w, hw⟩ := Option.isSome_iff_exists.mp (Definition.get?_isSome hv)
  have := hall w (mem_of_get? hw)
  subst this
  simpa [weightOf, Definition.get, hw] using hn

/-- Data as they are written to an arc: with a weight and with a condition. -/
structure IsArcData (data : Definition) : Prop where
  weighted : IsWeighted data
  conditioned : data.has "sql_on" = true

theorem explicitData_isArcData (h : explicitData identifier = .ok data) : IsArcData data := by
  unfold explicitData at h
  obtain ⟨condition, -, h⟩ := of_bind h
  obtain ⟨r, -, h⟩ := of_bind h
  cases h
  refine ⟨⟨r.weight, r.weight_pos, ⟨_, Definition.mem_set _ _ _⟩, fun v hv => ?_⟩, by simp⟩
  exact eq_of_mem_set hv

theorem matchData_isArcData {second : Definition} {u v : String}
    (h : matchData first u second v = .ok (r, data)) : IsArcData data := by
  unfold matchData at h
  obtain ⟨_, -, h⟩ := of_bind h
  obtain ⟨_, -, h⟩ := of_bind h
  obtain ⟨r', -, h⟩ := of_bind h
  obtain ⟨_, -, h⟩ := of_bind h
  obtain ⟨_, -, h⟩ := of_bind h
  cases h
  refine ⟨⟨r.weight, r.weight_pos, ⟨.int r.weight, by simp⟩, ?_⟩, by simp [Definition.has]⟩
  intro w hw
  simpa using hw

/-! ### Building the graph -/

def References.AreArcData (table : References) : Prop := ∀ e ∈ table, IsArcData e.2.2

theorem References.AreArcData.put (h : table.AreArcData) (hd : IsArcData data) (u v : String) :
    (table.put u v data).AreArcData := by
  intro e he
  unfold References.put at he
  split_ifs at he
  · obtain ⟨e', he', rfl⟩ := mem_map.mp he
    split_ifs
    · exact hd
    · exact h e' he'
  · rcases mem_append.mp he with he | he
    · exact h e he
    · rw [mem_singleton] at he
      rw [he]
      exact hd

theorem referenceStep_areArcData {view : String} {table' : References} (ht : table.AreArcData)
    (h : referenceStep view table identifier = .ok table') : table'.AreArcData := by
  unfold referenceStep at h
  obtain ⟨b, -, h⟩ := of_bind h
  split_ifs at h
  · cases h
    exact ht
  obtain ⟨relation, -, h⟩ := of_bind h
  obtain ⟨r, -, h⟩ := of_bind h
  obtain ⟨other, -, h⟩ := of_bind h
  obtain ⟨data, hda, h⟩ := of_bind h
  have hput := ht.put (explicitData_isArcData hda) view other.plain
  split_ifs at h
  · cases h
    exact hput
  obtain ⟨backwards, hback, h⟩ := of_bind h
  cases h
  exact hput.put (explicitData_isArcData hback) other.plain view

theorem references_areArcData (h : references views = .ok table) : table.AreArcData := by
  refine foldlM_induct views h (P := References.AreArcData) (by intro e he; simp at he) ?_
  intro t v t' _ ht hv
  obtain ⟨ids, -, hv⟩ := of_bind hv
  exact foldlM_induct ids hv ht fun _ _ _ _ ht h => referenceStep_areArcData ht h

/-- An identifier of a view makes the data of an arc to another view: together with an identifier of
that view, and they repeat rows only if it allows so. -/
def IsMatch (views : List View) (v : View) (first : Definition) (other : String)
    (data : Definition) : Prop :=
  other ≠ v.name ∧ ∃ w ∈ views, w.name = other ∧ ∃ ids, identifiers w = .ok ids ∧ ∃ second ∈ ids,
    ∃ r, matchData first v.name second other = .ok (r, data) ∧
      (r.isFanout = true → allowsFanout first other = .ok true)

/-- **What an identifier offers** for an arc to another view: the data it makes with the identifier
of its name there, if both may be joined and rows are repeated only where that is allowed. -/
theorem offer_eq_some_iff : offer views v first other = .ok (some (r, data)) ↔
      other ≠ v.name ∧ allows first other = .ok true ∧ ∃ w name ids second,
        views.find? (·.name == other) = some w ∧ first.need "name" = .ok name ∧
        identifiers w = .ok ids ∧
        ids.findM? (fun i => do return (← i.need "name").same name) = .ok (some second) ∧
        allows second v.name = .ok true ∧ matchData first v.name second other = .ok (r, data) ∧
        ∃ fanout, allowsFanout first other = .ok fanout ∧ (r.isFanout = true → fanout = true) := by
  constructor
  · intro h
    unfold offer at h
    by_cases hself : (other == v.name) = true
    · rw [if_pos hself] at h
      cases h
    rw [if_neg hself] at h
    obtain ⟨allowed, hallowed, h⟩ := of_bind h
    cases allowed with
    | false => cases h
    | true =>
      refine ⟨by simpa using hself, hallowed, ?_⟩
      cases hfi : views.find? (·.name == other) with
      | none =>
        rw [hfi] at h
        cases h
      | some w =>
        rw [hfi] at h
        obtain ⟨name, hn, h⟩ := of_bind h
        obtain ⟨ids, hids, h⟩ := of_bind h
        obtain ⟨second, hsnd, h⟩ := of_bind h
        cases second with
        | none => cases h
        | some second =>
          obtain ⟨back, hback, h⟩ := of_bind h
          cases back with
          | false => cases h
          | true =>
            obtain ⟨⟨r', data'⟩, hda, h⟩ := of_bind h
            obtain ⟨fanout, hfan, h⟩ := of_bind h
            split_ifs at h with hrep
            · cases h
            · cases h
              refine ⟨w, name, ids, second, rfl, hn, hids, hsnd, hback, hda, fanout,
                hfan, fun hr => by simpa [hr] using hrep⟩
  · rintro ⟨hne, hallowed, w, name, ids, second, hfi, hn, hids, hsnd, hback, hda, fanout,
      hfan, hrep⟩
    unfold offer
    rw [if_neg (by simpa using hne)]
    refine bind_eq_ok.mpr ⟨true, hallowed, ?_⟩
    rw [hfi]
    refine bind_eq_ok.mpr ⟨name, hn, ?_⟩
    refine bind_eq_ok.mpr ⟨ids, hids, ?_⟩
    refine bind_eq_ok.mpr ⟨some second, hsnd, ?_⟩
    refine bind_eq_ok.mpr ⟨true, hback, ?_⟩
    refine bind_eq_ok.mpr ⟨(r, data), hda, ?_⟩
    refine bind_eq_ok.mpr ⟨fanout, hfan, ?_⟩
    rw [if_neg]
    · rfl
    · simpa using hrep

theorem offer_isMatch (h : offer views v identifier other = .ok (some (r, data))) :
    IsMatch views v identifier other data := by
  obtain ⟨hne, -, w, name, ids, second, hfi, -, hids, hsnd, -, hda, fanout, hfan,
    hrep⟩ := offer_eq_some_iff.mp h
  refine ⟨hne, w, List.mem_of_find?_eq_some hfi, by simpa using List.find?_some hfi, ids, hids,
    second, mem_of_findM? hsnd, r, hda, fun hr => ?_⟩
  rw [hfan, hrep hr]

theorem settle_cases {g : Digraph String Definition} {u v : String}
    (h : settle g u v r data = .ok g') : g' = g ∨ g' = addArc g u v data := by
  unfold settle at h
  cases harc : g.arc? u v with
  | none =>
    rw [harc] at h
    cases h
    exact Or.inr rfl
  | some existing =>
    rw [harc] at h
    obtain ⟨preferred, -, h⟩ := of_bind h
    split_ifs at h
    · cases h
      exact Or.inr rfl
    · cases h
      exact Or.inl rfl

theorem matchStep_cases {g : Digraph String Definition}
    (h : matchStep views v identifier g other = .ok g') :
    g' = g ∨ ∃ data, IsMatch views v identifier other data ∧ g' = addArc g v.name other data := by
  unfold matchStep at h
  obtain ⟨offered, hoffer, h⟩ := of_bind h
  cases offered with
  | none =>
    cases h
    exact Or.inl rfl
  | some o =>
    refine (settle_cases h).imp_right fun hg => ?_
    exact ⟨o.2, offer_isMatch hoffer, hg⟩

theorem viewStep_induct {names : Names}
    (hwr : ∀ e ∈ table, e.1 = v.name → ∀ g, P g → P (addArc g e.1 e.2.1 e.2.2))
    (hmt : ∀ ids, identifiers v = .ok ids → ∀ i ∈ ids, ∀ g other data,
      IsMatch views v i other data → P g → P (addArc g v.name other data))
    {g : Digraph String Definition} {seen seen' : List String} (hg : P (g.addNode v.name))
    (h : viewStep views names table (g, seen) v = .ok (g', seen')) : P g' := by
  unfold viewStep at h
  dsimp only at h
  split_ifs at h
  · cases h
  obtain ⟨ids, hids, h⟩ := of_bind h
  obtain ⟨g2, hg2, h⟩ := of_bind h
  cases h
  have hrefs : P ((table.filter (·.1 == v.name)).foldl (fun g e => addArc g e.1 e.2.1 e.2.2)
      (g.addNode v.name)) := by
    refine List.foldlRecOn _ _ hg fun g0 h0 e he => ?_
    obtain ⟨he, hsrc⟩ := mem_filter.mp he
    exact hwr e he (by simpa using hsrc) g0 h0
  refine foldlM_induct ids hg2 hrefs ?_
  intro g0 i g1 hi h0 h1
  obtain ⟨name, -, h1⟩ := of_bind h1
  refine foldlM_induct _ h1 h0 ?_
  intro a other b _ ha hb
  rcases matchStep_cases hb with rfl | ⟨data, hd, rfl⟩
  · exact ha
  · exact hmt ids hids i hi a other data hd ha

theorem build_induct_matches (hem : P Digraph.empty)
    (hnode : ∀ v ∈ views, ∀ g, P g → P (g.addNode v.name))
    (hwr : ∀ v ∈ views, ∀ table, references views = .ok table → ∀ e ∈ table, e.1 = v.name →
      ∀ g, P g → P (addArc g e.1 e.2.1 e.2.2))
    (hmt : ∀ v ∈ views, ∀ ids, identifiers v = .ok ids → ∀ i ∈ ids, ∀ g other data,
      IsMatch views v i other data → P g → P (addArc g v.name other data))
    (h : build views = .ok g) : P g.graph := by
  unfold build at h
  obtain ⟨names, -, h⟩ := of_bind h
  obtain ⟨bridges, -, h⟩ := of_bind h
  obtain ⟨table, htab, h⟩ := of_bind h
  obtain ⟨⟨g0, seen⟩, hfold, h⟩ := of_bind h
  cases h
  refine foldlM_induct (P := fun s => P s.1) views hfold hem ?_
  rintro ⟨g1, seen1⟩ v ⟨g2, seen2⟩ hv hg hs
  exact viewStep_induct (hwr v hv table htab) (hmt v hv) (hnode v hv g1 hg) hs

theorem build_induct (hem : P Digraph.empty) (hnode : ∀ g v, P g → P (g.addNode v))
    (harc : ∀ g u v data, IsArcData data → P g → P (addArc g u v data)) (h : build views = .ok g) :
    P g.graph := by
  refine build_induct_matches hem (fun v _ g => hnode g v.name)
    (fun v _ table htab e he _ g hg => ?_) ?_ h
  · exact harc g _ _ _ (references_areArcData htab e he) hg
  · rintro v - ids - i - g other data ⟨-, _, -, -, _, -, _, -, r, hda, -⟩ hg
    exact harc g _ _ _ (matchData_isArcData hda) hg

/-- Between two views there is at most one arc, and every arc has a positive weight. -/
structure IsSound (g : Digraph String Definition) : Prop where
  simple : g.IsSimple
  positive : g.IsPositive weightOf

/-- **A built join graph has at most one arc between two views, each of positive weight.** -/
theorem build_isSound (h : build views = .ok g) : IsSound g.graph := by
  refine build_induct ⟨List.Pairwise.nil, fun a ha => by simp [Digraph.empty] at ha⟩ ?_ ?_ h
  · intro g v hg
    refine ⟨?_, fun a ha => hg.positive a (by simpa using ha)⟩
    have := hg.simple
    unfold Digraph.IsSimple at this ⊢
    simpa using this
  · intro g u v data hd hg
    refine ⟨hg.simple.addArc _ u v data, fun a ha => ?_⟩
    rcases Digraph.mem_addArc ha with ha | hda | ⟨old, hda⟩
    · exact hg.positive a ha
    · rw [hda]
      exact hd.weighted.weightOf_pos
    · rw [hda]
      exact hd.weighted.weightOf_merge old

/-- The ends of every arc are in the graph, and every arc has a condition. -/
structure IsWhole (g : Digraph String Definition) : Prop where
  closed : g.IsClosed
  conditioned : ∀ a ∈ g.arcs, a.data.has "sql_on" = true

theorem build_isWhole (h : build views = .ok g) : IsWhole g.graph := by
  refine build_induct ⟨fun a ha => by simp [Digraph.empty] at ha,
    fun a ha => by simp [Digraph.empty] at ha⟩ ?_ ?_ h
  · intro g v hg
    exact ⟨hg.closed.addNode v, fun a ha => hg.conditioned a (by simpa using ha)⟩
  · intro g u v data hd hg
    refine ⟨hg.closed.addArc _ u v data, fun a ha => ?_⟩
    rcases Digraph.mem_addArc ha with ha | hda | ⟨old, hda⟩
    · exact hg.conditioned a ha
    · rw [hda]
      exact hd.conditioned
    · rw [hda, has_merge, hd.conditioned, Bool.or_true]

/-! ### Joins along pairs -/

/-- The join `j` leads from the first view of the pair to the second. -/
def Leads (j : Join) (e : String × String) : Prop := j.base = .text e.1 ∧ j.target = .text e.2

theorem join_eq_ok {u v : String} (h : g.join u v = .ok j) :
    g.graph.hasArc u v = true ∧ Leads j (u, v) := by
  unfold join at h
  cases harc : g.graph.arc? u v with
  | none =>
    rw [harc] at h
    cases h
  | some a =>
    rw [harc] at h
    refine ⟨by rw [Digraph.hasArc, harc]; rfl, ?_, ?_⟩
    · exact (Join.make_property h (by decide) (by decide)).trans (by simp)
    · exact (Join.make_property h (by decide) (by decide)).trans (by simp)

/-- The pairs that lead to a view for the first time; `joined` holds the views that are there. -/
def firstTo (joined : List String) : List (String × String) → List (String × String)
  | [] => []
  | e :: rest =>
    if e.2 ∈ joined then firstTo (e.2 :: joined) rest else e :: firstTo (e.2 :: joined) rest

theorem joins_eq_ok {pairs : List (String × String)} {js : List Join} (h : g.joins pairs = .ok js) :
    (∀ e ∈ pairs, g.graph.hasArc e.1 e.2 = true) ∧ List.Forall₂ Leads js (firstTo [] pairs) := by
  unfold joins at h
  obtain ⟨⟨found, joined⟩, hfold, hfd⟩ := of_bind h
  cases hfd
  -- what is made after some joins is put behind them
  suffices hgen : ∀ (js0 : List Join) (joined0 : List String),
      pairs.foldlM (fun (state : List Join × List String) (e : String × String) => do
        let j ← g.join e.1 e.2
        return (if state.2.contains e.2 then state.1 else state.1 ++ [j], e.2 :: state.2))
          (js0, joined0)
        = .ok (js, joined) →
      (∀ e ∈ pairs, g.graph.hasArc e.1 e.2 = true) ∧
        ∃ new, js = js0 ++ new ∧ List.Forall₂ Leads new (firstTo joined0 pairs) by
    obtain ⟨harcs, new, rfl, hnew⟩ := hgen [] [] hfold
    exact ⟨harcs, by simpa using hnew⟩
  clear hfold h
  induction pairs with
  | nil =>
    intro js0 joined0 h
    cases h
    exact ⟨by simp, [], by simp, List.Forall₂.nil⟩
  | cons e rest ih =>
    intro js0 joined0 h
    obtain ⟨⟨js1, joined1⟩, hs, h⟩ := of_bind h
    obtain ⟨j, hj, hs⟩ := of_bind hs
    obtain ⟨harc, hleads⟩ := join_eq_ok hj
    obtain ⟨harcs, new, hnew, hall⟩ := ih js1 joined1 h
    refine ⟨by simpa using ⟨harc, by simpa using harcs⟩, ?_⟩
    by_cases hmem : e.2 ∈ joined0
    · simp only [contains_eq_mem, hmem] at hs
      cases hs
      exact ⟨new, hnew, by simpa [firstTo, hmem] using hall⟩
    · simp only [contains_eq_mem, hmem] at hs
      cases hs
      exact ⟨j :: new, by simpa using hnew, by simpa [firstTo, hmem] using ⟨hleads, hall⟩⟩

end JoinGraph

end SemanticLayer
