import SemanticLayer.Proofs.Join.Plan

/-!
# When views can be joined

The search for a plan finds one exactly if some arc touches the views and leads from a view that
reaches all of them (`plan_isOk_iff`): growing a plan from such an arc finds a path to every view in
its first round.  Where there is none, the search ends with the error that names the views
(`plan_eq_error`).
-/

namespace SemanticLayer.JoinGraph

open List

variable {e : Pair} {pairs : List Pair} {root : String} {views : List String}

/-- **Some arc that touches the views leads from a view that reaches all of them.** -/
def IsFeasible (g : JoinGraph) (views : List String) : Prop :=
  ∃ e : Pair, g.graph.hasArc e.1 e.2 = true ∧ (e.1 ∈ views ∨ e.2 ∈ views) ∧
    ∀ v ∈ views, g.graph.Reaches e.1 v

variable {g : JoinGraph}

theorem Spans.isFeasible (h : g.Spans views root pairs) : g.IsFeasible views := by
  obtain ⟨e, hhead, rfl⟩ := Option.map_eq_some_iff.mp h.head
  refine ⟨e, h.arcs e (mem_of_mem_head? hhead), h.touches e hhead, fun v hv => ?_⟩
  rcases h.covers v hv with rfl | hv
  · exact Digraph.Reaches.refl _ _
  · exact h.reaches hv

/-! ### Paths -/

/-- The path between the ends of a pair, with what it is compared by. -/
def candidate? (g : JoinGraph) (e : Pair) : Option (Nat × String × List String) :=
  (g.graph.shortestPath? weightOf e.1 e.2).map fun path =>
    (g.graph.pathWeight weightOf path, String.join path, path)

theorem candidate?_isSome_iff : (g.candidate? e).isSome ↔ g.graph.Reaches e.1 e.2 := by
  rw [candidate?, Option.isSome_map]
  constructor
  · intro h
    obtain ⟨p, hp⟩ := Option.isSome_iff_exists.mp h
    obtain ⟨d, hrt, -⟩ := Digraph.shortestPath?_some hp
    exact hrt.reaches
  · intro h
    obtain ⟨p, n, hrt⟩ := h.exists_route weightOf
    exact Digraph.shortestPath?_isSome hrt

section

variable (hnod : ∀ e ∈ pairs, e.1 ∈ g.graph.nodes ∧ e.2 ∈ g.graph.nodes)
include hnod

theorem candidates_eq : pairs.filterMapM (fun (u, v) => do
      if !g.graph.nodes.contains u || !g.graph.nodes.contains v then malformed .unknownNode
      return (g.graph.shortestPath? weightOf u v).map fun path =>
        (g.graph.pathWeight weightOf path, String.join path, path))
    = .ok (pairs.filterMap g.candidate?) := by
  refine Result.filterMapM_of_ok fun e he => ?_
  obtain ⟨h1, h2⟩ := hnod e he
  simp [h1, h2]
  rfl

theorem bestPath_isSome_iff :
    ∃ o, g.bestPath pairs = .ok o ∧ (o.isSome ↔ ∃ e ∈ pairs, g.graph.Reaches e.1 e.2) := by
  refine ⟨_, by unfold bestPath; rw [candidates_eq hnod]; rfl, ?_⟩
  rw [Option.isSome_map, isSome_head?, ne_eq, ← length_eq_zero_iff,
    length_mergeSort, length_eq_zero_iff]
  simp [← candidate?_isSome_iff, Option.isSome_iff_ne_none]

end

/-! ### Growing a plan -/

/-- Some view that a path may start from reaches the view. -/
def IsReached (g : JoinGraph) (pairs : List Pair) (v : String) : Prop :=
  ∃ a ∈ anchors pairs, g.graph.Reaches a v

section

variable {found : List (Option (List String))} {missing : List String} {v : String}

theorem bestPath_isSome_iff_isReached (hp : ∀ a ∈ anchors pairs, a ∈ g.graph.nodes)
    (hv : v ∈ g.graph.nodes) : ∃ o, g.bestPath ((anchors pairs).map (·, v)) = .ok o ∧
      (o.isSome ↔ g.IsReached pairs v) := by
  have hnod : ∀ e ∈ (anchors pairs).map (·, v), e.1 ∈ g.graph.nodes ∧ e.2 ∈ g.graph.nodes := by
    simpa using fun a ha => ⟨hp a ha, hv⟩
  simpa [IsReached] using bestPath_isSome_iff hnod

theorem mem_unreached_iff (hp : ∀ a ∈ anchors pairs, a ∈ g.graph.nodes)
    (hmis : ∀ v ∈ missing, v ∈ g.graph.nodes)
    (h : (inOrder missing).mapM (fun v => g.bestPath ((anchors pairs).map (·, v))) = .ok found) :
    v ∈ unreached missing found ↔ v ∈ missing ∧ ¬ g.IsReached pairs v := by
  rw [mem_unreached h, and_congr_right_iff]
  intro hv
  obtain ⟨o, ho, hsome⟩ := bestPath_isSome_iff_isReached hp (hmis v hv)
  rw [← hsome, ho]
  cases o <;> simp

theorem round_reached
    (h : (inOrder missing).mapM (fun v => g.bestPath ((anchors pairs).map (·, v))) = .ok found) :
    ∀ a ∈ anchors (pairs ++ (found.filterMap id).flatMap Digraph.steps), g.IsReached pairs a := by
  refine round_induct (P := fun l => ∀ a ∈ anchors l, g.IsReached pairs a)
    (fun a ha => ⟨a, ha, .refl _ _⟩) ?_ h
  intro l view path hpre hl hbest
  obtain ⟨e, he, ⟨q, rfl⟩, -, harcs⟩ := bestPath_route hbest
  obtain ⟨a, ha, rfl⟩ := mem_map.mp he
  obtain ⟨first, l', rfl⟩ : ∃ first l', l = first :: l' := by
    refine exists_cons_of_ne_nil fun hnil => ?_
    rw [hnil, prefix_nil] at hpre
    simp [hpre, anchors] at ha
  intro x hx
  rw [mem_anchors rfl, targets_append, mem_append, ← or_assoc] at hx
  rcases hx with hx | hx
  · exact hl x ((mem_anchors rfl).mpr hx)
  · obtain ⟨u, hu, hrch⟩ := (linked_steps (mem_singleton_self a) q).exists_reaches harcs hx
    exact ⟨a, ha, mem_singleton.mp hu ▸ hrch⟩

/-- **A plan grows to all missing views exactly if its views reach them**, and looking for it does
not fail. -/
theorem addMissing_isSome_iff (hg : g.graph.IsClosed)
    (hp : ∀ a ∈ anchors pairs, a ∈ g.graph.nodes) (hmis : ∀ v ∈ missing, v ∈ g.graph.nodes)
    (before : Nat) : ∃ o, g.addMissing missing pairs before = .ok o ∧
      (o.isSome ↔ ∀ v ∈ missing, g.IsReached pairs v) := by
  fun_induction addMissing g missing pairs before with
  | case1 missing pairs before e h =>
    obtain ⟨found, hfd⟩ := Result.mapM_ok_iff.mpr fun v hv =>
      (bestPath_isSome_iff_isReached hp (hmis v (mem_mergeSort.mp hv))).imp fun _ => And.left
    cases h.symm.trans hfd
  | case2 missing pairs before found h hem =>
    refine ⟨_, rfl, fun _ v hv => ?_, fun _ => rfl⟩
    by_contra hnot
    have := (mem_unreached_iff hp hmis h).mpr ⟨hv, hnot⟩
    simp_all
  | case3 missing pairs found h hem =>
    obtain ⟨v, hv⟩ := exists_mem_of_ne_nil _ (mt List.isEmpty_iff.mpr hem)
    exact ⟨none, rfl, by simpa using ⟨v, (mem_unreached_iff hp hmis h).mp hv⟩⟩
  | case4 missing pairs before found h hem hne ih =>
    -- what is missing after a round is not reached, and stays missing
    have hr := fun v => mem_unreached_iff (v := v) hp hmis h
    obtain ⟨v, hv⟩ := exists_mem_of_ne_nil _ (mt List.isEmpty_iff.mpr hem)
    have hnot : ¬ g.IsReached (pairs ++ (found.filterMap id).flatMap Digraph.steps) v := by
      rintro ⟨a, ha, hrch⟩
      obtain ⟨a', ha', hrch'⟩ := round_reached h a ha
      exact ((hr v).mp hv).2 ⟨a', ha', hrch'.trans hrch⟩
    obtain ⟨o, ho, hsome⟩ := ih (fun a ha => by
      obtain ⟨a', ha', hrch⟩ := round_reached h a ha
      exact hg.mem_of_reaches (hp a' ha') hrch) fun v hv => hmis v ((hr v).mp hv).1
    refine ⟨o, ho, hsome.trans ⟨fun hall => absurd (hall v hv) hnot, fun hall => ?_⟩⟩
    exact absurd (hall v ((hr v).mp hv).1) ((hr v).mp hv).2

theorem addMissing_added {before : Nat} {plan : List Pair}
    (h : g.addMissing missing pairs before = .ok (some plan)) :
    ∃ added, plan = pairs ++ added ∧ ∀ e ∈ added, g.graph.hasArc e.1 e.2 = true := by
  refine addMissing_induct
    (P := fun l => ∃ added, l = pairs ++ added ∧ ∀ e ∈ added, g.graph.hasArc e.1 e.2 = true)
    h ⟨[], by simp⟩ ?_
  rintro first _ view path - - ⟨added, rfl, hadded⟩ hbest
  obtain ⟨-, -, -, -, harcs⟩ := bestPath_route hbest
  exact ⟨added ++ Digraph.steps path, by simp, forall_mem_append.mpr ⟨hadded, harcs⟩⟩

/-- **Adding paths to missing views ends, whatever number is said to have been missing before**: with
nothing exactly if one of them is reached neither from the first view nor from a view that a pair
leads to, and otherwise with arcs behind the pairs that lead to all of them. -/
theorem addMissing_exact (hg : g.graph.IsClosed)
    (hp : ∀ e ∈ pairs, e.1 ∈ g.graph.nodes ∧ e.2 ∈ g.graph.nodes)
    (hmis : ∀ v ∈ missing, v ∈ g.graph.nodes) (before : Nat) :
    (g.addMissing missing pairs before = .ok none ↔
      ∃ v ∈ missing, ∀ a ∈ anchors pairs, ¬ g.graph.Reaches a v) ∧
    ((∀ v ∈ missing, ∃ a ∈ anchors pairs, g.graph.Reaches a v) →
      ∃ added, g.addMissing missing pairs before = .ok (some (pairs ++ added)) ∧
        (∀ e ∈ added, g.graph.hasArc e.1 e.2 = true) ∧
        ∀ v ∈ missing, v ∈ anchors (pairs ++ added)) := by
  have ha : ∀ a ∈ anchors pairs, a ∈ g.graph.nodes := by
    intro a ha
    rcases mem_append.mp ha with ha | ha
    · obtain ⟨e, he, rfl⟩ := Option.map_eq_some_iff.mp (Option.mem_toList.mp ha)
      exact (hp e (mem_of_mem_head? he)).1
    · obtain ⟨e, he, rfl⟩ := mem_map.mp ha
      exact (hp e he).2
  obtain ⟨o, ho, hsome⟩ := addMissing_isSome_iff hg ha hmis before
  cases o with
  | none =>
    have hnot : ∃ v ∈ missing, ∀ a ∈ anchors pairs, ¬ g.graph.Reaches a v := by
      simpa [IsReached] using hsome
    refine ⟨iff_of_true ho hnot, fun hall => ?_⟩
    simpa using hsome.mpr hall
  | some plan =>
    have hall := hsome.mp rfl
    refine ⟨iff_of_false (by simp [ho]) ?_, fun _ => ?_⟩
    · rintro ⟨v, hv, hnot⟩
      obtain ⟨a, ha, hrch⟩ := hall v hv
      exact hnot a ha hrch
    · have hcovers := addMissing_covers ho
      obtain ⟨added, rfl, harcs⟩ := addMissing_added ho
      exact ⟨added, ho, harcs, hcovers⟩

end

/-- Calls lead to users and these to cities; bills stand alone. -/
def chain : JoinGraph where
  graph := ⟨["calls", "users", "cities", "bills"],
    [⟨"calls", "users", []⟩, ⟨"users", "cities", []⟩]⟩
  bridges := []
  components := []
  reached := []

theorem addMissing_exact_chain :
    chain.addMissing ["bills", "cities"] [("calls", "users")] 2 = .ok none ∧
      ∃ added, chain.addMissing ["cities"] [("calls", "users")] 1
        = .ok (some (("calls", "users") :: added)) := by
  have hg : chain.graph.IsClosed := by simp [chain, Digraph.IsClosed]
  have hp : ∀ e ∈ [("calls", "users")], e.1 ∈ chain.graph.nodes ∧ e.2 ∈ chain.graph.nodes := by
    simp [chain]
  constructor
  · refine (addMissing_exact hg hp (by simp [chain]) 2).1.mpr ⟨"bills", by simp, ?_⟩
    intro a ha hrch
    rcases hrch.cases_tail with rfl | ⟨u, -, harc⟩
    · simp [anchors] at ha
    · simp [chain, Digraph.hasArc, Digraph.arc?] at harc
  · have hmis : ∀ v ∈ ["cities"], v ∈ chain.graph.nodes := by simp [chain]
    obtain ⟨added, h, -⟩ := (addMissing_exact hg hp hmis 1).2
      (by simpa [anchors] using Or.inr (Digraph.Reaches.of_hasArc rfl))
    exact ⟨added, h⟩

theorem grow_isSome_iff (hg : g.graph.IsClosed) {pair : Pair}
    (harc : g.graph.hasArc pair.1 pair.2 = true) (hvs : ∀ v ∈ views, v ∈ g.graph.nodes) :
    ∃ o, g.grow views pair = .ok o ∧ (o.isSome ↔ ∀ v ∈ views, g.graph.Reaches pair.1 v) := by
  have hrch : ∀ v, g.IsReached [pair] v ↔ g.graph.Reaches pair.1 v := by
    intro v
    simpa [IsReached, anchors] using (Digraph.Reaches.of_hasArc harc).trans
  -- the ends of the pair are reached anyway
  have hall : (∀ v ∈ views, g.graph.Reaches pair.1 v) ↔
      ∀ v ∈ views.filter fun v => v != pair.1 && v != pair.2, g.graph.Reaches pair.1 v := by
    refine ⟨fun h v hv => h v (mem_of_mem_filter hv), fun h v hv => ?_⟩
    by_cases h1 : v = pair.1
    · exact h1 ▸ Digraph.Reaches.refl _ _
    · by_cases h2 : v = pair.2
      · exact h2 ▸ Digraph.Reaches.of_hasArc harc
      · exact h v (mem_filter.mpr ⟨hv, by simp [h1, h2]⟩)
  rw [hall]
  unfold grow
  dsimp only
  split_ifs with hem
  · rw [List.isEmpty_iff] at hem
    exact ⟨_, rfl, by simp [hem]⟩
  · simp only [← hrch]
    exact addMissing_isSome_iff hg (by simpa [anchors] using hg.mem_of_hasArc harc)
      (fun v hv => hvs v (mem_of_mem_filter hv)) _

/-! ### All plans -/

section

variable (hg : g.graph.IsClosed)
include hg

theorem firstPlan_cases {starts : List Pair} (hvs : ∀ v ∈ views, v ∈ g.graph.nodes)
    (harcs : ∀ e ∈ starts, g.graph.hasArc e.1 e.2 = true) :
    (∃ plan, g.firstPlan views starts = .ok plan) ∨
      (∀ e ∈ starts, ¬ ∀ v ∈ views, g.graph.Reaches e.1 v) ∧ g.firstPlan views starts
          = .error (.noJoinPath (views.mergeSort fun a b => decide (a ≤ b))) := by
  induction starts with
  | nil => exact Or.inr ⟨by simp, rfl⟩
  | cons e rest ih =>
    obtain ⟨o, ho, hsome⟩ := grow_isSome_iff hg (harcs e (by simp)) hvs
    rw [firstPlan, ho]
    cases o with
    | some plan => exact Or.inl ⟨plan, rfl⟩
    | none =>
      refine (ih fun e' he' => harcs e' (by simp [he'])).imp_right fun h => ⟨fun e' he' => ?_, h.2⟩
      rcases mem_cons.mp he' with rfl | he'
      · simpa using hsome.symm
      · exact h.1 e' he'

theorem plan_total (hmany : 1 < views.length) (hvs : ∀ v ∈ views, v ∈ g.graph.nodes) :
    (∃ pairs, g.plan views = .ok pairs) ∨
      (∀ e ∈ g.startingPairs views, ¬ ∀ v ∈ views, g.graph.Reaches e.1 v) ∧
        g.plan views = .error (.noJoinPath (views.mergeSort fun a b => decide (a ≤ b))) := by
  have hfst := firstPlan_cases hg hvs
    fun e (he : e ∈ g.startingPairs views) => (hasArc_of_mem_startingPairs he).1
  unfold plan
  rw [if_neg (by omega)]
  cases g.orderedPlan? views with
  | some ordered => exact Or.inl ⟨ordered, rfl⟩
  | none =>
    match views, hfst, hvs with
    | [u, v], hfst, hvs =>
      have hnod : ∀ e ∈ [(u, v), (v, u)], e.1 ∈ g.graph.nodes ∧ e.2 ∈ g.graph.nodes := by
        have hu := hvs u (by simp)
        have hv := hvs v (by simp)
        simp [hu, hv]
      obtain ⟨o, ho, -⟩ := bestPath_isSome_iff hnod
      dsimp only
      rw [ho]
      cases o with
      | some path => exact Or.inl ⟨_, rfl⟩
      | none => exact hfst
    | [], hfst, hvs => simp at hmany
    | [_], hfst, hvs => simp at hmany
    | _ :: _ :: _ :: _, hfst, hvs => exact hfst

theorem mem_startingPairs :
    e ∈ g.startingPairs views ↔ g.graph.hasArc e.1 e.2 = true ∧ (e.1 ∈ views ∨ e.2 ∈ views) := by
  refine ⟨hasArc_of_mem_startingPairs, fun ⟨harc, htouch⟩ => ?_⟩
  exact mem_mergeSort.mpr (mem_filter.mpr
    ⟨(Digraph.mem_edges hg).mpr harc, by simpa using htouch⟩)

variable (hmany : 1 < views.length) (hnd : views.Nodup) (hvs : ∀ v ∈ views, v ∈ g.graph.nodes)
include hmany hnd hvs

theorem plan_isOk_iff : (∃ pairs, g.plan views = .ok pairs) ↔ g.IsFeasible views := by
  constructor
  · rintro ⟨pairs, h⟩
    obtain ⟨root, hspans⟩ := plan_spans hmany h hnd
    exact hspans.isFeasible
  · rintro ⟨e, harc, htouch, hrch⟩
    refine (plan_total hg hmany hvs).resolve_right fun hno => ?_
    exact hno.1 e ((mem_startingPairs hg).mpr ⟨harc, htouch⟩) hrch

theorem IsFeasible.exists_plan (h : g.IsFeasible views) :
    ∃ root pairs, g.plan views = .ok pairs ∧ g.Spans views root pairs := by
  obtain ⟨pairs, hpn⟩ := (plan_isOk_iff hg hmany hnd hvs).mpr h
  obtain ⟨root, hspans⟩ := plan_spans hmany hpn hnd
  exact ⟨root, pairs, hpn, hspans⟩

theorem plan_eq_error (h : ¬ g.IsFeasible views) :
    g.plan views = .error (.noJoinPath (views.mergeSort fun a b => decide (a ≤ b))) := by
  rcases plan_total hg hmany hvs with hpn | ⟨-, herr⟩
  · exact absurd ((plan_isOk_iff hg hmany hnd hvs).mp hpn) h
  · exact herr

end

/-! ### Joins -/

/-- The join of a pair says its condition in more than one way. -/
def IsAmbiguous (g : JoinGraph) (e : Pair) : Prop :=
  ∃ a, g.graph.arc? e.1 e.2 = some a ∧ Join.IsAmbiguous a.data

theorem join_cases (hg : IsWhole g.graph) (harc : g.graph.hasArc e.1 e.2 = true) :
    g.IsAmbiguous e ∧ g.join e.1 e.2 = .error (.joinWithManyConditions (.text e.1)) ∨
      ¬ g.IsAmbiguous e ∧ ∃ j, g.join e.1 e.2 = .ok j := by
  obtain ⟨a, ha⟩ := Option.isSome_iff_exists.mp harc
  have hon : a.data.has "sql_on" = true := hg.conditioned a (List.mem_of_find?_eq_some ha)
  have hiff : g.IsAmbiguous e ↔ Join.IsAmbiguous
      ((a.data.set "base_view_name" (.text e.1)).set "join_view_name" (.text e.2)) := by
    simp [IsAmbiguous, ha, Join.IsAmbiguous]
  rw [hiff, join, ha]
  simpa using Join.make_cases (d := (a.data.set "base_view_name" (.text e.1)).set
    "join_view_name" (.text e.2)) (by simp) (by simp) (by simp [hon])

/-- The first join that cannot be made ends the run, whatever was made before. -/
theorem foldlM_join_cases (hg : IsWhole g.graph)
    (harcs : ∀ e ∈ pairs, g.graph.hasArc e.1 e.2 = true) (state : List Join × List String) :
    (∃ e ∈ pairs, g.IsAmbiguous e ∧ pairs.foldlM (fun (found, joined) (u, v) => do
        let j ← g.join u v
        return (if joined.contains v then found else found ++ [j], v :: joined)) state
      = .error (.joinWithManyConditions (.text e.1))) ∨
    (∀ e ∈ pairs, ¬ g.IsAmbiguous e) ∧ ∃ s, pairs.foldlM (fun (found, joined) (u, v) => do
        let j ← g.join u v
        return (if joined.contains v then found else found ++ [j], v :: joined)) state = .ok s := by
  induction pairs generalizing state with
  | nil => exact Or.inr ⟨by simp, state, rfl⟩
  | cons e rest ih =>
    rw [foldlM_cons]
    rcases join_cases hg (harcs e (by simp)) with ⟨hamb, herr⟩ | ⟨hnot, j, hj⟩
    · refine Or.inl ⟨e, by simp, hamb, ?_⟩
      dsimp only
      rw [herr]
      rfl
    · dsimp only
      rw [hj]
      rcases ih (fun e' he' => harcs e' (by simp [he'])) _ with ⟨e', he', h⟩ | ⟨hno, h⟩
      · exact Or.inl ⟨e', by simp [he'], h⟩
      · exact Or.inr ⟨by simpa using ⟨hnot, by simpa using hno⟩, h⟩

theorem joins_cases (hg : IsWhole g.graph) (harcs : ∀ e ∈ pairs, g.graph.hasArc e.1 e.2 = true) :
    (∃ e ∈ pairs, g.IsAmbiguous e ∧ g.joins pairs = .error (.joinWithManyConditions (.text e.1))) ∨
      (∀ e ∈ pairs, ¬ g.IsAmbiguous e) ∧ ∃ js, g.joins pairs = .ok js := by
  rcases foldlM_join_cases hg harcs ([], []) with ⟨e, he, hamb, herr⟩ | ⟨hno, s, hs⟩
  · refine Or.inl ⟨e, he, hamb, ?_⟩
    unfold joins
    rw [herr]
    rfl
  · refine Or.inr ⟨hno, s.1, ?_⟩
    unfold joins
    rw [hs]
    rfl

end SemanticLayer.JoinGraph
