import SemanticLayer.Join.Plan
import SemanticLayer.Proofs.Graph.Search
import SemanticLayer.Proofs.Join.Graph
import SemanticLayer.Proofs.Sorting

/-!
# What join plans look like

A plan starts at one view and adds view after view along arcs (`Linked`, `Rooted`), until all views
are there (`plan_spans`).  No pair leads back to the first view (`Grown`): a path that is added is
the lightest from any view that is there, so it comes back to none of them (`bestPath_avoids`).  Of
the pairs to one view only the first is joined (`Grown.firstTo`).
-/

namespace SemanticLayer.JoinGraph

open Result List SemanticLayer.Digraph

variable {before : Nat} {e pair : Pair} {g : JoinGraph} {missing path there views : List String}
  {pairs plan : List Pair} {root v u : String} {P : List Pair → Prop}

/-! ### Linked pairs -/

/-- Each pair starts at a view that is there, or to which an earlier one leads. -/
def Linked (there : List String) : List Pair → Prop
  | [] => True
  | e :: rest => e.1 ∈ there ∧ Linked (e.2 :: there) rest

def targets (pairs : List Pair) : List String := pairs.map (·.2)

@[simp] theorem targets_nil : targets [] = [] := rfl

@[simp] theorem targets_cons (e : Pair) (pairs : List Pair) :
    targets (e :: pairs) = e.2 :: targets pairs := rfl

@[simp] theorem targets_append (l r : List Pair) : targets (l ++ r) = targets l ++ targets r :=
  map_append

theorem Linked.mono {a b : List String} (hab : ∀ x ∈ a, x ∈ b)
    (h : Linked a pairs) : Linked b pairs := by
  induction pairs generalizing a b with
  | nil => trivial
  | cons e rest ih =>
    refine ⟨hab _ h.1, ih ?_ h.2⟩
    intro x hx
    rcases mem_cons.mp hx with rfl | hx
    · simp
    · exact mem_cons_of_mem _ (hab x hx)

theorem linked_append {l r : List Pair} :
    Linked there (l ++ r) ↔ Linked there l ∧ Linked (targets l ++ there) r := by
  induction l generalizing there with
  | nil => simp [Linked]
  | cons e l ih =>
    have hsm : ∀ x, x ∈ targets l ++ e.2 :: there ↔ x ∈ targets (e :: l) ++ there := by
      intro x
      simp only [targets_cons, mem_cons, mem_append]
      tauto
    rw [cons_append, Linked, Linked, ih, and_assoc]
    refine and_congr_right fun _ => and_congr_right fun _ => ⟨?_, ?_⟩
    · exact Linked.mono fun x hx => (hsm x).mp hx
    · exact Linked.mono fun x hx => (hsm x).mpr hx

theorem linked_steps (h : u ∈ there) (p : List String) :
    Linked there (Digraph.steps (u :: p)) := by
  induction p generalizing u there with
  | nil => trivial
  | cons v p ih => exact ⟨h, ih (mem_cons_self ..)⟩

@[simp] theorem targets_steps (u : String) (p : List String) :
    targets (Digraph.steps (u :: p)) = p := by
  induction p generalizing u with
  | nil => rfl
  | cons v p ih => rw [Digraph.steps, targets_cons, ih]

/-! ### Trees of pairs -/

/-- Pairs that make a tree at `root`: each leads from a view that is there to one that is not. -/
structure IsTree (root : String) (pairs : List Pair) : Prop where
  linked : Linked [root] pairs
  distinct : (root :: targets pairs).Nodup

theorem isTree_snoc :
    IsTree root (pairs ++ [e]) ↔
      IsTree root pairs ∧ e.1 ∈ root :: targets pairs ∧ e.2 ∉ root :: targets pairs := by
  have hlk : Linked [root] (pairs ++ [e]) ↔ Linked [root] pairs ∧ e.1 ∈ root :: targets pairs := by
    rw [linked_append]
    simp [Linked, or_comm]
  have hdis : (root :: targets (pairs ++ [e])).Nodup ↔
      (root :: targets pairs).Nodup ∧ e.2 ∉ root :: targets pairs := by
    rw [targets_append, ← cons_append, nodup_append_comm, targets_cons, targets_nil,
      singleton_append, nodup_cons, and_comm]
  constructor
  · intro h
    exact ⟨⟨(hlk.mp h.linked).1, (hdis.mp h.distinct).1⟩, (hlk.mp h.linked).2,
      (hdis.mp h.distinct).2⟩
  · rintro ⟨h, hfrom, hto⟩
    exact ⟨hlk.mpr ⟨h.linked, hfrom⟩, hdis.mpr ⟨h.distinct, hto⟩⟩

theorem mem_targets (he : e ∈ pairs) : e.2 ∈ targets pairs :=
  mem_map_of_mem he

theorem IsTree.source_mem (h : IsTree root pairs)
    (he : e ∈ pairs) : e.1 ∈ root :: targets pairs := by
  induction pairs using List.reverseRecOn with
  | nil => simp at he
  | append_singleton pairs e' ih =>
    obtain ⟨htr, hfrom, -⟩ := isTree_snoc.mp h
    have hsub : ∀ x, x ∈ root :: targets pairs → x ∈ root :: targets (pairs ++ [e']) := by
      intro x hx
      rw [targets_append]
      exact mem_append_left _ hx
    rcases mem_append.mp he with he | he
    · exact hsub _ (ih htr he)
    · rw [mem_singleton] at he
      subst he
      exact hsub _ hfrom

/-! ### Only the first pair to a view -/

theorem mem_targets_firstTo (joined : List String) (pairs : List Pair) (v : String) :
    v ∈ targets (firstTo joined pairs) ↔ v ∈ targets pairs ∧ v ∉ joined := by
  induction pairs generalizing joined with
  | nil => simp [firstTo]
  | cons e rest ih =>
    by_cases h : e.2 ∈ joined
    · rw [firstTo, if_pos h, ih, targets_cons, mem_cons, mem_cons]
      constructor
      · rintro ⟨hv, hj⟩
        exact ⟨Or.inr hv, fun hv' => hj (Or.inr hv')⟩
      · rintro ⟨rfl | hv, hj⟩
        · exact absurd h hj
        · refine ⟨hv, ?_⟩
          rintro (rfl | hv')
          · exact hj h
          · exact hj hv'
    · rw [firstTo, if_neg h, targets_cons, mem_cons, ih, targets_cons, mem_cons, mem_cons]
      constructor
      · rintro (rfl | ⟨hv, hj⟩)
        · exact ⟨Or.inl rfl, h⟩
        · exact ⟨Or.inr hv, fun hv' => hj (Or.inr hv')⟩
      · rintro ⟨rfl | hv, hj⟩
        · exact Or.inl rfl
        · by_cases heq : v = e.2
          · exact Or.inl heq
          · exact Or.inr ⟨hv, fun hv' => hv'.elim heq hj⟩

theorem nodup_targets_firstTo (joined : List String) (pairs : List Pair) :
    (targets (firstTo joined pairs)).Nodup := by
  induction pairs generalizing joined with
  | nil => simp [firstTo]
  | cons e rest ih =>
    rw [firstTo]
    split_ifs
    · exact ih _
    · rw [targets_cons, nodup_cons]
      refine ⟨fun hmem => ?_, ih _⟩
      exact ((mem_targets_firstTo _ _ _).mp hmem).2 (mem_cons_self ..)

theorem Linked.firstTo {joined : List String} (hsub : ∀ x ∈ joined, x ∈ there)
    (h : Linked there pairs) : Linked there (firstTo joined pairs) := by
  induction pairs generalizing there joined with
  | nil => trivial
  | cons e rest ih =>
    have hsub' : ∀ x ∈ e.2 :: joined, x ∈ e.2 :: there := by
      intro x hx
      rcases mem_cons.mp hx with rfl | hx
      · simp
      · exact mem_cons_of_mem _ (hsub x hx)
    rw [JoinGraph.firstTo]
    split_ifs with hmem
    · -- the pair is dropped, but its target is there already
      refine (ih hsub' h.2).mono fun x hx => ?_
      rcases mem_cons.mp hx with rfl | hx
      · exact hsub _ hmem
      · exact hx
    · exact ⟨h.1, ih hsub' h.2⟩

/-- Pairs that start at `root`, are linked and do not come back to `root`. -/
structure Grown (root : String) (pairs : List Pair) : Prop where
  head : pairs.head?.map (·.1) = some root
  linked : Linked [root] pairs
  avoids : root ∉ targets pairs

/-- Pairs along arcs, linked from the first view on. -/
structure Rooted (g : JoinGraph) (root : String) (pairs : List Pair) : Prop where
  head : pairs.head?.map (·.1) = some root
  arcs : ∀ e ∈ pairs, g.graph.hasArc e.1 e.2 = true
  linked : Linked [root] pairs

theorem Rooted.grown (h : g.Rooted root pairs)
    (havoids : root ∉ targets pairs) : Grown root pairs := ⟨h.head, h.linked, havoids⟩

theorem Rooted.append {l r : List Pair} (h : g.Rooted root l)
    (harcs : ∀ e ∈ r, g.graph.hasArc e.1 e.2 = true) (hr : Linked (targets l ++ [root]) r) :
    g.Rooted root (l ++ r) where
  head := by
    cases l with
    | nil => simpa using h.head
    | cons e l => simpa using h.head
  arcs e he := (mem_append.mp he).elim (h.arcs e) (harcs e)
  linked := linked_append.mpr ⟨h.linked, hr⟩

theorem Linked.exists_reaches
    (h : Linked there pairs) (harcs : ∀ e ∈ pairs, g.graph.hasArc e.1 e.2 = true)
    (hv : v ∈ targets pairs) : ∃ u ∈ there, g.graph.Reaches u v := by
  induction pairs generalizing there with
  | nil => simp at hv
  | cons e rest ih =>
    have harc := Digraph.Reaches.of_hasArc (harcs e (mem_cons_self ..))
    rcases mem_cons.mp hv with rfl | hv
    · exact ⟨e.1, h.1, harc⟩
    · obtain ⟨u, hu, hrch⟩ := ih h.2 (fun e' he' => harcs e' (mem_cons_of_mem _ he')) hv
      rcases mem_cons.mp hu with rfl | hu
      · exact ⟨e.1, h.1, harc.trans hrch⟩
      · exact ⟨u, hu, hrch⟩

theorem Rooted.reaches
    (h : g.Rooted root pairs) (hv : v ∈ targets pairs) : g.graph.Reaches root v := by
  obtain ⟨u, hu, hrch⟩ := h.linked.exists_reaches h.arcs hv
  exact mem_singleton.mp hu ▸ hrch

/-- Pairs that lead along arcs from one view to all of some views and begin at one of these or with
an arc to it. -/
structure Spans (g : JoinGraph) (views : List String) (root : String) (pairs : List Pair) :
    Prop extends g.Rooted root pairs where
  covers : ∀ v ∈ views, v = root ∨ v ∈ targets pairs
  touches : ∀ e ∈ pairs.head?, e.1 ∈ views ∨ e.2 ∈ views

/-! ### The order of the arcs -/

theorem cleanAfter_avoids (before : List Pair) (pairs : List Pair) (first : Pair)
    (hfst : before.head? = some first) : first.1 ∉ targets (cleanAfter before pairs) := by
  induction pairs generalizing before with
  | nil => simp [cleanAfter]
  | cons e rest ih =>
    have hr := ih (before ++ [e]) (by simp [hfst])
    rw [cleanAfter]
    split_ifs with hdrop
    · exact hr
    · rw [targets_cons, mem_cons]
      rintro (heq | hmem)
      · exact hdrop (by simp [hfst, heq])
      · exact hr hmem

theorem clean_cons (e : Pair) (rest : List Pair) :
    clean (e :: rest) = e :: cleanAfter [e] rest := by
  simp [clean, cleanAfter]

theorem foldlM_joined {found : List String} (h : pairs.foldlM (fun views (e : Pair) =>
      if views.contains e.1 then some (views ++ [e.2]) else none) there = some found) :
    Linked there pairs ∧ ∀ x ∈ found, x ∈ there ∨ x ∈ targets pairs := by
  induction pairs generalizing there with
  | nil =>
    cases h
    exact ⟨trivial, fun x hx => Or.inl hx⟩
  | cons e rest ih =>
    rw [foldlM_cons] at h
    split_ifs at h with hmem
    · obtain ⟨hlk, hfd⟩ := ih h
      refine ⟨⟨by simpa using hmem, hlk.mono ?_⟩, ?_⟩
      · intro x hx
        simpa [or_comm] using hx
      · intro x hx
        have := hfd x hx
        simp only [mem_append, targets_cons, mem_cons] at this ⊢
        tauto
    · cases h

theorem mem_of_mem_cleanAfter {before : List Pair}
    (h : e ∈ cleanAfter before pairs) : e ∈ pairs := by
  induction pairs generalizing before with
  | nil => simp [cleanAfter] at h
  | cons e' rest ih =>
    rw [cleanAfter] at h
    split_ifs at h
    · exact mem_cons_of_mem _ (ih h)
    · rcases mem_cons.mp h with rfl | h
      · exact mem_cons_self ..
      · exact mem_cons_of_mem _ (ih h)

theorem orderedPlan?_spans (h : g.orderedPlan? views = some pairs) (hvs : 1 < views.length) :
    ∃ e rest, pairs = e :: cleanAfter [e] rest ∧ g.Spans views e.1 pairs := by
  unfold orderedPlan? at h
  obtain ⟨order, horder, h⟩ := Option.bind_eq_some_iff.mp h
  rw [if_neg (by omega)] at h
  obtain ⟨found, hfd, h⟩ := Option.bind_eq_some_iff.mp h
  split_ifs at h with hall
  cases h
  rw [all_eq_true] at hall
  -- the pairs are arcs between the views
  have harc : ∀ e ∈ order, g.graph.hasArc e.1 e.2 = true ∧ e.1 ∈ views ∧ e.2 ∈ views :=
    fun e he => hasArc_restrict
      (hasArc_of_mem_line (mem_of_topological? horder he))
  cases order with
  | nil =>
    cases hfd
    obtain ⟨v, hv⟩ := exists_mem_of_length_pos (l := views) (by omega)
    simpa using hall v hv
  | cons e rest =>
    rw [clean_cons] at hfd ⊢
    obtain ⟨hlk, hmem⟩ := foldlM_joined hfd
    refine ⟨e, rest, rfl, ⟨rfl, fun e' he' => ?_, ⟨by simp, hlk.mono (by simp [or_comm])⟩⟩, ?_, ?_⟩
    · rcases mem_cons.mp he' with rfl | he'
      · exact (harc e' (mem_cons_self ..)).1
      · exact (harc e' (mem_cons_of_mem _ (mem_of_mem_cleanAfter he'))).1
    · intro v hv
      have := hmem v (by simpa using hall v hv)
      simpa [or_assoc] using this
    · intro e' he'
      cases he'
      exact Or.inl (harc e (mem_cons_self ..)).2.1

/-! ### Lightest paths -/

theorem head_mergeSort_le {found : List (Nat × String × List String)}
    {best : Nat × String × List String}
    (h : (found.mergeSort fun a b =>
      decide (a.1 < b.1) || (a.1 == b.1 && decide (a.2.1 ≤ b.2.1))).head? = some best) :
    best ∈ found ∧ ∀ x ∈ found, best.1 ≤ x.1 := by
  let key (x : Nat × String × List String) := toLex (x.1, x.2.1)
  have hkey : (fun a b : Nat × String × List String =>
      decide (a.1 < b.1) || (a.1 == b.1 && decide (a.2.1 ≤ b.2.1)))
      = fun a b => decide (key a ≤ key b) :=
    funext fun a => funext fun b => (decide_toLex_le (a.1, a.2.1) (b.1, b.2.1)).symm
  rw [hkey] at h
  have hsrt := pairwise_mergeSort_key key found
  obtain ⟨rest, hr⟩ := List.head?_eq_some_iff.mp h
  have hmem : ∀ x, x ∈ found ↔ x ∈ best :: rest := by
    intro x
    rw [← hr, mem_mergeSort]
  rw [hr, pairwise_cons] at hsrt
  refine ⟨(hmem best).mpr (mem_cons_self ..), fun x hx => ?_⟩
  rcases mem_cons.mp ((hmem x).mp hx) with rfl | hx
  · exact Nat.le_refl _
  · rcases Prod.Lex.toLex_le_toLex.mp (hsrt.1 x hx) with hlt | ⟨heq, -⟩
    · exact hlt.le
    · exact heq.le

theorem bestPath_some (h : g.bestPath pairs = .ok (some path)) :
    (∃ e ∈ pairs, g.graph.shortestPath? weightOf e.1 e.2 = some path) ∧
      ∀ e ∈ pairs, ∀ p, g.graph.shortestPath? weightOf e.1 e.2 = some p →
        g.graph.pathWeight weightOf path ≤ g.graph.pathWeight weightOf p := by
  unfold bestPath at h
  obtain ⟨found, hfd, h⟩ := of_bind h
  obtain ⟨hall, hmem⟩ := filterMapM_eq_ok hfd
  have hs : ∀ (e : Pair) (o : Option (Nat × String × List String)), (do
        if !g.graph.nodes.contains e.1 || !g.graph.nodes.contains e.2 then malformed .unknownNode
        return (g.graph.shortestPath? weightOf e.1 e.2).map fun path =>
          (g.graph.pathWeight weightOf path, String.join path, path) : Result _) = .ok o →
      o = (g.graph.shortestPath? weightOf e.1 e.2).map fun path =>
        (g.graph.pathWeight weightOf path, String.join path, path) := by
    intro e o ho
    split_ifs at ho
    · cases ho
    · cases ho
      rfl
  simp only [pure, Except.pure, Except.ok.injEq, Option.map_eq_some_iff] at h
  obtain ⟨best, hbest, rfl⟩ := h
  obtain ⟨hin, hle⟩ := head_mergeSort_le hbest
  obtain ⟨e, he, hfe⟩ := (hmem best).mp hin
  obtain ⟨p, hp, rfl⟩ := Option.map_eq_some_iff.mp (hs e _ hfe).symm
  refine ⟨⟨e, he, hp⟩, ?_⟩
  intro e' he' p' hp'
  obtain ⟨o, ho⟩ := hall e' he'
  have hval := hs e' o ho
  rw [hp'] at hval
  subst hval
  exact hle _ ((hmem _).mpr ⟨e', he', ho⟩)

theorem bestPath_route (h : g.bestPath pairs = .ok (some path)) :
    ∃ e ∈ pairs, (∃ q, path = e.1 :: q) ∧ e.2 ∈ path ∧
      ∀ s ∈ Digraph.steps path, g.graph.hasArc s.1 s.2 = true := by
  obtain ⟨⟨e, he, hpath⟩, -⟩ := bestPath_some h
  obtain ⟨d, hrt, -⟩ := shortestPath?_some hpath
  exact ⟨e, he, hrt.head_eq, hrt.stop_mem, hrt.hasArc_of_mem_steps⟩

/-- **The best path comes back to no view from which it could have started.** -/
theorem bestPath_avoids (hg : IsSound g.graph) (h : g.bestPath pairs = .ok (some path)) :
    ∃ e ∈ pairs, ∃ q, path = e.1 :: q ∧ (∀ x, (x, e.2) ∈ pairs → x ∉ q) ∧ e.2 ∈ path := by
  obtain ⟨⟨e, he, hpath⟩, hle⟩ := bestPath_some h
  obtain ⟨d, hrt, -⟩ := shortestPath?_some hpath
  obtain ⟨q, rfl⟩ := hrt.head_eq
  refine ⟨e, he, q, rfl, ?_, hrt.stop_mem⟩
  intro x hx hxq
  obtain ⟨l, r, rfl⟩ := append_of_mem hxq
  -- the rest of the path from `x` on is lighter than the whole
  obtain ⟨m, hm, -, hlt⟩ := hrt.suffix (hg.positive.neighbours true) (l := e.1 :: l) rfl
  obtain ⟨p, hp⟩ := Option.isSome_iff_exists.mp (shortestPath?_isSome hm)
  obtain ⟨d', hrt', hmin'⟩ := shortestPath?_some hp
  have hbest := hle (x, e.2) hx p hp
  rw [hrt.pathWeight_eq hg.simple, hrt'.pathWeight_eq hg.simple] at hbest
  have := hmin' _ m hm
  have := hlt (by simp)
  omega

/-! ### Growing a plan -/

theorem mem_anchors (h : pairs.head?.map (·.1) = some root) :
    v ∈ anchors pairs ↔ v = root ∨ v ∈ targets pairs := by
  simp [anchors, h, targets]

theorem mem_anchors_of_isPrefix {l r : List Pair} (h : l <+: r) (hv : v ∈ anchors l) :
    v ∈ anchors r := by
  obtain ⟨m, rfl⟩ := h
  cases l <;> simp_all [anchors]
  tauto

section

variable {found : List (Option (List String))}

theorem mem_unreached
    (h : (inOrder missing).mapM (fun v => g.bestPath (there.map (·, v))) = .ok found) :
    v ∈ unreached missing found ↔ v ∈ missing ∧ g.bestPath (there.map (·, v)) = .ok none := by
  have hin : v ∈ missing ↔ v ∈ inOrder missing := mem_mergeSort.symm
  have hall := mapM_eq_ok h
  rw [hin, unreached]
  clear h hin
  generalize inOrder missing = views at hall
  induction hall with
  | nil => simp
  | @cons a o _ _ hab _ ih => cases o <;> aesop

/-- What holds of pairs, and still holds when a best path from their views is added to them, holds
of them with all paths that are found in a round. -/
theorem round_induct (hp : P pairs)
    (hstep : ∀ {l : List Pair} {view : String} {path : List String}, pairs <+: l → P l →
      g.bestPath ((anchors pairs).map (·, view)) = .ok (some path) → P (l ++ Digraph.steps path))
    (h : (inOrder missing).mapM (fun v => g.bestPath ((anchors pairs).map (·, v))) = .ok found) :
    P (pairs ++ (found.filterMap id).flatMap Digraph.steps) := by
  have hfd : ∀ path ∈ found.filterMap id, ∃ view,
      g.bestPath ((anchors pairs).map (·, view)) = .ok (some path) := by
    intro path hpath
    obtain ⟨view, -, hview⟩ := exists_of_mem_mapM h (by simpa using hpath)
    exact ⟨view, hview⟩
  generalize found.filterMap id = paths at hfd
  induction paths using List.reverseRecOn with
  | nil => simpa using hp
  | append_singleton paths path ih =>
    obtain ⟨view, hbest⟩ := hfd path (by simp)
    rw [flatMap_append, ← List.append_assoc]
    simpa using hstep (prefix_append ..) (ih fun p hp => hfd p (by simp [hp])) hbest

theorem round_covers
    (h : (inOrder missing).mapM (fun v => g.bestPath ((anchors pairs).map (·, v))) = .ok found)
    (hv : v ∈ missing) : v ∈ anchors (pairs ++ (found.filterMap id).flatMap Digraph.steps) ∨
      v ∈ unreached missing found := by
  obtain ⟨o, ho, hbest⟩ := exists_of_mapM h (mem_mergeSort.mpr hv)
  cases o with
  | none => exact Or.inr ((mem_unreached h).mpr ⟨hv, hbest⟩)
  | some path =>
    obtain ⟨e, he, ⟨q, rfl⟩, hend, -⟩ := bestPath_route hbest
    obtain ⟨a, ha, rfl⟩ := mem_map.mp he
    left
    rcases mem_cons.mp hend with heq | hmem
    · obtain rfl : v = a := heq
      exact mem_anchors_of_isPrefix (prefix_append ..) ha
    · obtain ⟨s, hs, rfl⟩ := mem_map.mp ((targets_steps ..).symm ▸ hmem : v ∈ targets (steps (a :: q)))
      exact mem_append_right _ (mem_targets (mem_append_right _
        (mem_flatMap.mpr ⟨_, mem_filterMap.mpr ⟨_, ho, rfl⟩, hs⟩)))

end

section

variable (h : g.addMissing missing pairs before = .ok (some plan))
include h

/-- **What holds of pairs, and still holds when a best path from their views is added to them, holds
of the plan that grows from them.** -/
theorem addMissing_induct (hp : P pairs)
    (hstep : ∀ {first l : List Pair} {view : String} {path : List String}, P first → first <+: l →
      P l → g.bestPath ((anchors first).map (·, view)) = .ok (some path) →
      P (l ++ Digraph.steps path)) : P plan := by
  fun_induction addMissing g missing pairs before with
  | case1 => cases h
  | case2 _ _ _ _ hr =>
    cases h
    exact round_induct hp (hstep hp) hr
  | case3 => cases h
  | case4 _ _ _ _ hr _ _ ih => exact ih h (round_induct hp (hstep hp) hr)

theorem isPrefix_addMissing : pairs <+: plan :=
  addMissing_induct (P := (pairs <+: ·)) h prefix_rfl fun _ _ hl _ => hl.trans (prefix_append ..)

theorem addMissing_covers : ∀ v ∈ missing, v ∈ anchors plan := by
  fun_induction addMissing g missing pairs before with
  | case1 => cases h
  | case2 _ _ _ _ hr hem =>
    cases h
    intro v hv
    rw [List.isEmpty_iff] at hem
    exact (round_covers hr hv).resolve_right (by simp [hem])
  | case3 => cases h
  | case4 _ _ _ _ hr _ _ ih =>
    intro v hv
    exact (round_covers hr hv).elim (mem_anchors_of_isPrefix (isPrefix_addMissing h)) (ih h v)

theorem addMissing_rooted (hp : g.Rooted root pairs) : g.Rooted root plan := by
  refine addMissing_induct h hp ?_
  intro first l view path hfst hpre hl hbest
  obtain ⟨e, he, ⟨q, rfl⟩, -, harcs⟩ := bestPath_route hbest
  obtain ⟨a, ha, rfl⟩ := mem_map.mp he
  have hmem := (mem_anchors hl.head).mp (mem_anchors_of_isPrefix hpre ha)
  exact hl.append harcs (linked_steps (by simpa [or_comm] using hmem) q)

theorem addMissing_avoids (hg : IsSound g.graph) (hhead : pairs.head?.map (·.1) = some root)
    (havoids : root ∉ targets pairs) : root ∉ targets plan := by
  refine (addMissing_induct (P := fun l => l.head?.map (·.1) = some root ∧ root ∉ targets l) h
    ⟨hhead, havoids⟩ ?_).2
  intro first l view path hfst _ hl hbest
  obtain ⟨e, he, q, rfl, havoid, -⟩ := bestPath_avoids hg hbest
  obtain ⟨a, -, rfl⟩ := mem_map.mp he
  refine ⟨by rw [List.head?_append, Option.map_or, hl.1, Option.some_or], ?_⟩
  rw [targets_append, targets_steps, mem_append]
  have := (mem_anchors hfst.1).mpr (Or.inl rfl)
  exact not_or.mpr ⟨hl.2, havoid root (mem_map.mpr ⟨root, this, rfl⟩)⟩

end

theorem head?_grow (h : g.grow views pair = .ok (some plan)) : plan.head? = some pair := by
  unfold grow at h
  dsimp only at h
  split_ifs at h with hem
  · cases h
    rfl
  · obtain ⟨rest, rfl⟩ := isPrefix_addMissing h
    rfl

theorem grow_spans
    (harc : g.graph.hasArc pair.1 pair.2 = true) (htouch : pair.1 ∈ views ∨ pair.2 ∈ views)
    (h : g.grow views pair = .ok (some plan)) : g.Spans views pair.1 plan := by
  have hst : g.Rooted pair.1 [pair] := ⟨rfl, by simpa using harc, ⟨by simp, trivial⟩⟩
  have htouches : ∀ e ∈ plan.head?, e.1 ∈ views ∨ e.2 ∈ views := by
    rw [head?_grow h]
    intro e he
    cases he
    exact htouch
  unfold grow at h
  dsimp only at h
  have hcover : ∀ v ∈ views, v = pair.1 ∨ v = pair.2 ∨
      v ∈ views.filter fun v => v != pair.1 && v != pair.2 := by
    intro v hv
    by_cases h1 : v = pair.1
    · exact Or.inl h1
    · by_cases h2 : v = pair.2
      · exact Or.inr (Or.inl h2)
      · exact Or.inr (Or.inr (by simp [hv, h1, h2]))
  split_ifs at h with hem
  · cases h
    rw [List.isEmpty_iff] at hem
    refine ⟨hst, fun v hv => ?_, htouches⟩
    have := hcover v hv
    rw [hem] at this
    simpa using this
  · have hpn := addMissing_rooted h hst
    refine ⟨hpn, fun v hv => (mem_anchors hpn.head).mp ?_, htouches⟩
    rcases hcover v hv with rfl | rfl | hmem
    · exact mem_anchors_of_isPrefix (isPrefix_addMissing h) (by simp [anchors])
    · exact mem_anchors_of_isPrefix (isPrefix_addMissing h) (by simp [anchors])
    · exact addMissing_covers h v hmem

theorem grow_avoids (hg : IsSound g.graph)
    (hpa : pair.1 ≠ pair.2) (h : g.grow views pair = .ok (some plan)) :
    pair.1 ∉ targets plan := by
  unfold grow at h
  dsimp only at h
  split_ifs at h
  · cases h
    simpa using hpa
  · exact addMissing_avoids h hg rfl (by simpa using hpa)

theorem firstPlan_eq_ok {starts : List Pair} (h : g.firstPlan views starts = .ok plan) :
    ∃ pair ∈ starts, g.grow views pair = .ok (some plan) := by
  induction starts with
  | nil => cases h
  | cons pair rest ih =>
    obtain ⟨o, ho, h⟩ := of_bind h
    cases o with
    | none =>
      obtain ⟨pair', hmem, hgrow⟩ := ih h
      exact ⟨pair', mem_cons_of_mem _ hmem, hgrow⟩
    | some p =>
      cases h
      exact ⟨pair, mem_cons_self .., ho⟩

/-! ### All plans -/

theorem hasArc_of_mem_startingPairs (h : e ∈ g.startingPairs views) :
    g.graph.hasArc e.1 e.2 = true ∧ (e.1 ∈ views ∨ e.2 ∈ views) := by
  obtain ⟨hedge, htouch⟩ := mem_filter.mp (mem_mergeSort.mp h)
  exact ⟨hasArc_of_mem_edges hedge, by simpa using htouch⟩

theorem bestPath_two (hne : u ≠ v) (h : g.bestPath [(u, v), (v, u)] = .ok (some path)) :
    ∃ a b q, path = a :: q ∧ b ∈ q ∧ (a, b) ∈ [(u, v), (v, u)] ∧
      ∀ s ∈ Digraph.steps path, g.graph.hasArc s.1 s.2 = true := by
  obtain ⟨e, he, ⟨q, rfl⟩, hend, harcs⟩ := bestPath_route h
  refine ⟨e.1, e.2, q, rfl, (mem_cons.mp hend).resolve_left ?_, he, harcs⟩
  simp only [mem_cons, not_mem_nil, or_false] at he
  rcases he with rfl | rfl
  · exact hne.symm
  · exact hne

section

variable (hvs : 1 < views.length) (h : g.plan views = .ok pairs)
include hvs h

/-- **How a plan for several views was found**: from the order of the arcs, as a path between two
views, or grown from an arc that touches them. -/
theorem plan_cases : g.orderedPlan? views = some pairs ∨
      (∃ u v path, views = [u, v] ∧ g.bestPath [(u, v), (v, u)] = .ok (some path) ∧
        pairs = Digraph.steps path) ∨
      ∃ e ∈ g.startingPairs views, g.grow views e = .ok (some pairs) := by
  unfold plan at h
  rw [if_neg (by omega)] at h
  cases hord : g.orderedPlan? views with
  | some ordered =>
    rw [hord] at h
    cases h
    exact Or.inl rfl
  | none =>
    rw [hord] at h
    match views, h with
    | [u, v], h =>
      obtain ⟨best, hbest, h⟩ := of_bind h
      cases best with
      | none => exact Or.inr (Or.inr (firstPlan_eq_ok h))
      | some path =>
        cases h
        exact Or.inr (Or.inl ⟨u, v, path, rfl, hbest, rfl⟩)
    | [], h => simp at hvs
    | [_], h => simp at hvs
    | _ :: _ :: _ :: _, h => exact Or.inr (Or.inr (firstPlan_eq_ok h))

/-- **Every plan for several views leads along arcs to all of them.** -/
theorem plan_spans (hnd : views.Nodup) : ∃ root, g.Spans views root pairs := by
  rcases plan_cases hvs h with hord | ⟨u, v, path, rfl, hbest, rfl⟩ | ⟨e, he, hgrow⟩
  · obtain ⟨e, -, -, hspans⟩ := orderedPlan?_spans hord hvs
    exact ⟨e.1, hspans⟩
  · obtain ⟨a, b, q, rfl, hb, hab, harcs⟩ := bestPath_two (by simpa using hnd) hbest
    obtain ⟨c, r, rfl⟩ := exists_cons_of_ne_nil (ne_nil_of_mem hb)
    refine ⟨a, ⟨rfl, harcs, linked_steps (by simp) _⟩, ?_, ?_⟩
    all_goals simp only [mem_cons, not_mem_nil, or_false] at hab
    · rw [targets_steps]
      rintro x hx
      simp only [mem_cons, not_mem_nil, or_false] at hx
      rcases hab with ⟨rfl, rfl⟩ | ⟨rfl, rfl⟩ <;> rcases hx with rfl | rfl
      · exact Or.inl rfl
      · exact Or.inr hb
      · exact Or.inr hb
      · exact Or.inl rfl
    · rintro e' he'
      cases he'
      rcases hab with ⟨rfl, -⟩ | ⟨rfl, -⟩ <;> simp
  · obtain ⟨harc, htouch⟩ := hasArc_of_mem_startingPairs he
    exact ⟨e.1, grow_spans harc htouch hgrow⟩

theorem plan_avoids (hg : IsSound g.graph) (hhead : pairs.head? = some e) (hloop : e.1 ≠ e.2) :
    e.1 ∉ targets pairs := by
  rcases plan_cases hvs h with hord | ⟨u, v, path, rfl, hbest, rfl⟩ | ⟨e', he', hgrow⟩
  · obtain ⟨e', rest, rfl, -⟩ := orderedPlan?_spans hord hvs
    cases hhead
    rw [targets_cons, mem_cons]
    exact not_or.mpr ⟨hloop, cleanAfter_avoids [e] rest e rfl⟩
  · obtain ⟨e', he', q, rfl, havoid, -⟩ := bestPath_avoids hg hbest
    cases q with
    | nil => simp [steps] at hhead
    | cons b q =>
      cases hhead
      rw [targets_steps]
      exact havoid e'.1 he'
  · rw [head?_grow hgrow] at hhead
    cases hhead
    exact grow_avoids hg hloop hgrow

/-- **Every plan for several views grows from one of them or from a view on the way**, whichever
way it was found, if only the first pair is no loop. -/
theorem plan_grown (hg : IsSound g.graph) (hnd : views.Nodup)
    (hloop : ∀ e ∈ pairs.head?, e.1 ≠ e.2) :
    ∃ root, Grown root pairs ∧ ∀ v ∈ views, v = root ∨ v ∈ targets pairs := by
  obtain ⟨root, hspans⟩ := plan_spans hvs h hnd
  obtain ⟨e, hhead, rfl⟩ := Option.map_eq_some_iff.mp hspans.head
  exact ⟨e.1, hspans.grown (plan_avoids hvs h hg hhead (hloop e hhead)), hspans.covers⟩

end

theorem plan_nil (g : JoinGraph) : g.plan [] = .ok [] := by
  have horder : (g.graph.restrict []).line.topological? = some [] := by
    simp [restrict]
    rfl
  simp [plan, orderedPlan?, horder]
  rfl

end SemanticLayer.JoinGraph
