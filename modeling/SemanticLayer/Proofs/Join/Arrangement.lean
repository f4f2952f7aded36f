import SemanticLayer.Proofs.Join.Content
import SemanticLayer.Proofs.Join.Joinable
import SemanticLayer.Proofs.Project.Order

/-!
# Join graphs of views in another order

Views in another order, with their identifiers in another order, offer the same arcs, so their join
graph has the same components under the same names (`build_reordered`).
-/

namespace SemanticLayer.JoinGraph

open Result List SemanticLayer.Digraph

variable {c : List String} {g : JoinGraph} {views : List View} {v : String}

/-! ### The order of the components -/

/-- The order of components: the larger one comes first, then the one whose first view is last. -/
def isBefore (a b : List String) : Bool :=
  decide (b.length < a.length) ||
    (a.length == b.length && decide ((b.head?.getD "") ≤ (a.head?.getD "")))

theorem sortedComponents_eq (g : Digraph String Definition) :
    sortedComponents g = (g.components.map inOrder).mergeSort isBefore := rfl

theorem mem_inOrder : v ∈ inOrder c ↔ v ∈ c := mem_mergeSort

theorem inOrder_congr {c' : List String} (h : c.Perm c') : inOrder c = inOrder c' :=
  List.Perm.eq_of_pairwise (fun _ _ _ _ => String.le_antisymm) (pairwise_mergeSort_key id c)
    (pairwise_mergeSort_key id c') ((mergeSort_perm _ _).trans (h.trans (mergeSort_perm _ _).symm))

def rank (c : List String) : Natᵒᵈ ×ₗ Stringᵒᵈ :=
  toLex (.toDual c.length, .toDual (c.head?.getD ""))

theorem isBefore_eq : isBefore = fun a b => decide (rank a ≤ rank b) :=
  funext fun a => funext fun b => (decide_toLex_le (ofLex (rank a)) (ofLex (rank b))).symm

section

variable {g g' : Digraph String Definition} (hg : g.IsClosed) (hg' : g'.IsClosed)
  (halike : g.Alike g')

include hg

theorem mem_sortedComponents :
    c ∈ sortedComponents g ↔ ∃ v ∈ g.nodes, c = inOrder (g.component v) := by
  rw [sortedComponents_eq, mem_mergeSort, mem_map]
  constructor
  · rintro ⟨c', hc', rfl⟩
    obtain ⟨v, hv, rfl⟩ := exists_of_mem_components hc'
    exact ⟨v, hv, rfl⟩
  · rintro ⟨v, hv, rfl⟩
    -- the component was listed for another of its views, perhaps
    obtain ⟨c', hc', hmem⟩ := exists_mem_components hg hv
    obtain ⟨w, -, rfl⟩ := exists_of_mem_components hc'
    exact ⟨_, hc', inOrder_congr (component_perm hg hg (Digraph.Alike.refl g) hmem)⟩

theorem eq_of_mem_sortedComponents (hc : c ∈ sortedComponents g) (hv : v ∈ c) :
    c = inOrder (g.component v) := by
  obtain ⟨w, -, rfl⟩ := (mem_sortedComponents hg).mp hc
  exact inOrder_congr (component_perm hg hg (Digraph.Alike.refl g) (mem_inOrder.mp hv))

theorem nodup_sortedComponents : (sortedComponents g).Nodup :=
  (mergeSort_perm _ _).nodup_iff.mpr
    (nodup_map_components hg fun _ _ => mem_inOrder)

include hg' halike

theorem inOrder_component_congr (v : String) : inOrder (g.component v) = inOrder (g'.component v) :=
  inOrder_congr (component_perm hg hg' halike (self_mem_component hg v))

theorem sortedComponents_congr : sortedComponents g = sortedComponents g' := by
  have hsrt : ∀ g, (sortedComponents g).Pairwise (rank · ≤ rank ·) := by
    intro g
    rw [sortedComponents_eq, isBefore_eq]
    exact pairwise_mergeSort_key rank _
  refine List.Perm.eq_of_pairwise (fun a b ha hb hab hba => ?_) (hsrt g) (hsrt g') ?_
  · -- components that cannot be told apart by the order have their first view in common
    obtain ⟨hlen, hhead⟩ : a.length = b.length ∧ a.head?.getD "" = b.head?.getD "" := by
      simpa [rank] using hab.antisymm hba
    obtain ⟨v, -, hv⟩ := (mem_sortedComponents hg).mp ha
    cases a with
    | nil => simpa [← hv, self_mem_component hg] using mem_inOrder (c := g.component v) (v := v)
    | cons x a =>
      cases b with
      | nil => cases hlen
      | cons y b =>
        have hxy : x = y := hhead
        rw [eq_of_mem_sortedComponents hg ha (mem_cons_self ..),
          eq_of_mem_sortedComponents hg' hb (mem_cons_self ..), ← hxy]
        exact inOrder_component_congr hg hg' halike x
  · refine (perm_ext_iff_of_nodup (nodup_sortedComponents hg)
      (nodup_sortedComponents hg')).mpr fun c => ?_
    rw [mem_sortedComponents hg, mem_sortedComponents hg']
    simp only [halike.nodes, inOrder_component_congr hg hg' halike]

end

/-! ### What views in another order offer -/

theorem Offers.mono {ids ids' : List (String × Definition)} (h : ids ⊆ ids') {u : String}
    {r : Relationship} {on : Value} (ho : Offers ids u v r on) : Offers ids' u v r on := by
  rcases ho with hwr | ⟨hne, first, second, hfst, hsnd, hfit⟩
  · cases hwr with
    | forwards hi href => exact Or.inl (.forwards (h hi) href)
    | backwards hi href honce => exact Or.inl (.backwards (h hi) href honce)
  · exact Or.inr ⟨hne, first, second, h hfst, h hsnd, hfit⟩

theorem name_of_reorders {v v' : View} (h : v.definition.Reorders v'.definition) :
    v.name = v'.name :=
  congrArg Value.plain (h.get (by decide))

theorem identifiers_perm {v v' : View} (h : v.definition.Reorders v'.definition)
    {ids : List Definition} (hids : identifiers v = .ok ids) :
    ∃ ids', identifiers v' = .ok ids' ∧ ids.Perm ids' := by
  rcases h.identifiers with heq | ⟨items, items', hv, hv', hpm⟩
  · refine ⟨ids, ?_, List.Perm.refl _⟩
    rwa [identifiers, ← heq]
  · rw [identifiers, hv] at hids
    obtain ⟨ids', hids', hpm'⟩ := mapM_perm hpm hids
    exact ⟨ids', by rw [identifiers, hv']; exact hids', hpm'⟩

theorem owned_singleton_perm {v v' : View} (h : v.definition.Reorders v'.definition) :
    (owned [v]).Perm (owned [v']) := by
  simp only [owned, flatMap_cons, flatMap_nil, append_nil, name_of_reorders h]
  refine List.Perm.map _ ?_
  cases hids : identifiers v with
  | ok ids =>
    obtain ⟨ids', hids', hpm⟩ := identifiers_perm h hids
    rw [hids']
    exact hpm
  | error e =>
    cases hids' : identifiers v' with
    | ok ids' =>
      obtain ⟨ids, hok, -⟩ := identifiers_perm h.symm hids'
      cases hids.symm.trans hok
    | error e' => exact List.Perm.refl _

theorem nodup_of_build (h : build views = .ok g) : (views.map View.name).Nodup := by
  unfold build at h
  obtain ⟨ns, -, h⟩ := of_bind h
  obtain ⟨bridges, -, h⟩ := of_bind h
  obtain ⟨table, -, h⟩ := of_bind h
  obtain ⟨s, hs, -⟩ := of_bind h
  have hrun : ∀ (l : List View) (s s' : Digraph String Definition × List String),
      l.foldlM (viewStep views ns table) s = .ok s' →
        (l.map View.name).Nodup ∧ ∀ v ∈ l, v.name ∉ s.2 := by
    intro l
    induction l with
    | nil => simp
    | cons v l ih =>
      rintro ⟨g0, seen⟩ s' hl
      rw [foldlM_cons] at hl
      obtain ⟨s1, hs1, hl⟩ := of_bind hl
      obtain ⟨hnd, hap⟩ := ih s1 s' hl
      unfold viewStep at hs1
      dsimp only at hs1
      by_cases hseen : seen.contains v.name = true
      · rw [if_pos hseen] at hs1
        cases hs1
      · rw [if_neg hseen] at hs1
        obtain ⟨ids, -, hs1⟩ := of_bind hs1
        obtain ⟨g1, -, hs1⟩ := of_bind hs1
        cases hs1
        simp only [mem_cons, not_or] at hap
        refine ⟨nodup_cons.mpr ⟨?_, hnd⟩, ?_⟩
        · intro hmem
          obtain ⟨w, hw, hn⟩ := mem_map.mp hmem
          exact (hap w hw).1 hn
        · simp only [mem_cons, forall_eq_or_imp]
          exact ⟨by simpa using hseen, fun w hw => (hap w hw).2⟩
  exact (hrun views _ s hs).1

section Views

variable {views' : List View}
  (h : AreReordered (views.map View.definition) (views'.map View.definition))

include h

theorem exists_reorders {x : View} (hx : x ∈ views) :
    ∃ x' ∈ views', x.definition.Reorders x'.definition := by
  obtain ⟨d, hd, hreorders⟩ := h.exists_of_mem (mem_map_of_mem hx)
  obtain ⟨x', hx', rfl⟩ := mem_map.mp hd
  exact ⟨x', hx', hreorders⟩

theorem names_perm : (views.map View.name).Perm (views'.map View.name) := by
  have hmap := h.map (S := Eq) (fun d => (d.get "name").plain) (fun d => (d.get "name").plain)
    fun d d' hd => by rw [hd.get (by decide)]
  rw [map_map, map_map] at hmap
  exact rearranged_eq_iff.mp hmap

theorem owned_perm : (owned views).Perm (owned views') := by
  let own (d : Definition) := owned [{ (default : View) with definition := d }]
  have hown : ∀ views : List View, owned views = (views.map View.definition).flatMap own := by
    intro views
    simp only [flatMap_map, own, owned, flatMap_cons, flatMap_nil, append_nil]
    rfl
  rw [hown, hown]
  exact rearranged_eq_iff.mp (h.flatMap fun d d' hd =>
    rearranged_eq_iff.mpr (owned_singleton_perm hd))

theorem areListed_reordered (hls : AreListed views) : AreListed views' := by
  intro x' hx'
  obtain ⟨x, hx, hd⟩ := exists_reorders h.symm hx'
  obtain ⟨ids, hids⟩ := hls x hx
  obtain ⟨ids', hids', -⟩ := identifiers_perm hd.symm hids
  exact ⟨ids', hids'⟩

theorem areNamed_reordered (hnamed : AreNamed views) : AreNamed views' where
  text e he := hnamed.text e ((owned_perm h).mem_iff.mpr he)
  nodup := ((owned_perm h).map _).nodup_iff.mp hnamed.nodup

theorem hasName_reordered {u n : String} (hn : HasName views' u n) : HasName views u n := by
  obtain ⟨i, hi, hby⟩ := hn
  exact ⟨i, (owned_perm h).mem_iff.mpr hi, hby⟩

section Offer

variable (hviews : (views.map View.name).Nodup) (hnamed : AreNamed views)

include hviews

theorem find?_reordered (n : String) :
    views.find? (·.name == n) = none ∧ views'.find? (·.name == n) = none ∨
      ∃ w ∈ views, ∃ w' ∈ views', views.find? (·.name == n) = some w ∧
        views'.find? (·.name == n) = some w' ∧ w.definition.Reorders w'.definition := by
  have hvs' := (names_perm h).nodup_iff.mp hviews
  by_cases hn : n ∈ views.map View.name
  · obtain ⟨w, hw, rfl⟩ := mem_map.mp hn
    obtain ⟨w', hw', hd⟩ := exists_reorders h hw
    refine Or.inr ⟨w, hw, w', hw', find?_of_mem hviews hw, ?_, hd⟩
    rw [name_of_reorders hd]
    exact find?_of_mem hvs' hw'
  · have hno : ∀ {l : List View}, n ∉ l.map View.name → l.find? (·.name == n) = none := by
      intro l hl
      refine List.find?_eq_none.mpr fun w hw heq => hl ?_
      exact mem_map.mpr ⟨w, hw, by simpa using heq⟩
    exact Or.inl ⟨hno hn, hno fun hn' => hn ((names_perm h).mem_iff.mpr hn')⟩

include hnamed

theorem findM?_reordered {w w' : View} (hw : w ∈ views) (hw' : w' ∈ views')
    {ids ids' : List Definition} (hids : identifiers w = .ok ids)
    (hids' : identifiers w' = .ok ids') (hpm : ids.Perm ids') (n : String) :
    ids.findM? (fun i => do return (← i.need "name").same (.text n) : Definition → Result Bool) =
      ids'.findM? fun i => do return (← i.need "name").same (.text n) := by
  have hvs' := (names_perm h).nodup_iff.mp hviews
  have hnm' := areNamed_reordered h hnamed
  rw [findM?_name hviews hnamed hw hids, findM?_name hvs' hnm' hw' hids']
  cases hfi : ids.find? fun i => (i.get "name").plain == n with
  | none =>
    have hall := List.find?_eq_none.mp hfi
    rw [List.find?_eq_none.mpr fun i hi => hall i (hpm.mem_iff.mpr hi)]
  | some j =>
    have hn : (j.get "name").plain = n := by simpa using List.find?_some hfi
    rw [← hn, find?_name_of_mem hvs' hnm' hw' hids'
      (hpm.mem_iff.mp (List.mem_of_find?_eq_some hfi))]

theorem offer_reordered (hls : AreListed views) {x x' : View} (hx : x.name = x'.name)
    {i : Definition} (hi : (i.get "name").isText = true) (v : String) :
    offer views x i v = offer views' x' i v := by
  obtain ⟨n, hn⟩ := Definition.exists_of_isText hi
  have hneed : i.need "name" = .ok (.text n) := Definition.need_eq_ok.mpr hn
  unfold offer
  rw [hx, hneed]
  rcases find?_reordered h hviews v with ⟨hno, hno'⟩ | ⟨w, hw, w', hw', hfi, hfi', hd⟩
  · rw [hno, hno']
  · obtain ⟨ids, hids⟩ := hls w hw
    obtain ⟨ids', hids', hpm⟩ := identifiers_perm hd hids
    have hsm := findM?_reordered h hviews hnamed hw hw' hids hids' hpm n
    rw [hfi, hfi']
    simp only [hids, hids', bind, Except.bind] at hsm ⊢
    rw [hsm]

theorem canBuild_reordered (hcan : CanBuild views) : CanBuild views' where
  listed := areListed_reordered h hcan.listed
  legible e he := hcan.legible e ((owned_perm h).mem_iff.mpr he)
  named e he := hcan.named e ((owned_perm h).mem_iff.mpr he)
  composed e he := hcan.composed e ((owned_perm h).mem_iff.mpr he)
  matched x' hx' i hi v hv := by
    obtain ⟨x, hx, hd⟩ := exists_reorders h.symm hx'
    have hn := name_of_reorders hd
    have hi' : (x.name, i) ∈ owned views := by
      rw [← hn]
      exact (owned_perm h).mem_iff.mpr hi
    obtain ⟨o, ho⟩ := hcan.matched x hx i hi' v (hasName_reordered h hv)
    exact ⟨o, by rwa [← offer_reordered h hviews hnamed hcan.listed hn.symm (hnamed.text _ hi')]⟩

end Offer

theorem build_alike (hnamed : AreNamed views) (hg : build views = .ok g) :
    ∃ g', build views' = .ok g' ∧ g.graph.Alike g'.graph := by
  have hviews := nodup_of_build hg
  have hvs' := (names_perm h).nodup_iff.mp hviews
  obtain ⟨hcan, hof⟩ := (build_meets hviews hnamed).only g hg
  have hmeets' := build_meets hvs' (areNamed_reordered h hnamed)
  obtain ⟨g', hg'⟩ := hmeets'.succeeds (canBuild_reordered h hviews hnamed hcan)
  have hof' := (hmeets'.only g' hg').2
  have hoffers : ∀ {u v}, (∃ r on, Offers (owned views) u v r on) ↔
      ∃ r on, Offers (owned views') u v r on := fun {u v} =>
    ⟨fun ⟨r, on, ho⟩ => ⟨r, on, ho.mono (owned_perm h).subset⟩,
      fun ⟨r, on, ho⟩ => ⟨r, on, ho.mono (owned_perm h).symm.subset⟩⟩
  have harcs : ∀ u v, g.graph.hasArc u v = g'.graph.hasArc u v := by
    intro u v
    rw [Bool.eq_iff_iff, hof.arcs, hof'.arcs, (names_perm h).mem_iff, hoffers]
  refine ⟨g', hg', fun v => ?_, harcs⟩
  rw [hof.nodes, hof'.nodes, (names_perm h).mem_iff]
  simp only [harcs]

end Views

/-! ### The names of the components -/

theorem joinableFrom_eq (hg : build views = .ok g) (v : String) : g.joinableFrom v =
      (g.components.zipIdx.filter fun e => (g.graph.reach e.1).contains v).map
        fun e => componentName e.2 := by
  rw [joinableFrom, (build_components hg).2, zipIdx_map, filter_map, map_map]
  rfl

theorem build_reordered {views' : List View}
    (h : AreReordered (views.map View.definition) (views'.map View.definition))
    (hnamed : AreNamed views) (hg : build views = .ok g) : ∃ g', build views' = .ok g' ∧
      ∀ v, g'.componentOf v = g.componentOf v ∧ g'.joinableFrom v = g.joinableFrom v := by
  obtain ⟨g', hg', halike⟩ := build_alike h hnamed hg
  have hcl := (build_isWhole hg).closed
  have hcl' := (build_isWhole hg').closed
  have hcom : g'.components = g.components := by
    rw [(build_components hg).1, (build_components hg').1, sortedComponents_congr hcl hcl' halike]
  refine ⟨g', hg', fun v => ⟨by rw [componentOf, componentOf, hcom], ?_⟩⟩
  have hrch : ∀ c, (g'.graph.reach c).contains v = (g.graph.reach c).contains v := by
    intro c
    rw [Bool.eq_iff_iff, contains_iff_mem, contains_iff_mem, mem_reach hcl,
      mem_reach hcl']
    simp only [halike.reaches_iff]
  rw [joinableFrom_eq hg, joinableFrom_eq hg', hcom]
  simp only [hrch]

end SemanticLayer.JoinGraph
