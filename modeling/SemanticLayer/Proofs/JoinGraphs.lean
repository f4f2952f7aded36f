import SemanticLayer.Proofs.Refresh

/-!
# Join graphs of several models and of several fields

The graph of merged results is kept for the first model that asks, so each model gets its own
exactly if all have the same one (`Store.merged_own_iff`).  More fields never have fewer joinable
fields (`Action.joinable_fields_grow`).
-/

namespace SemanticLayer

open SemanticLayer.Action List

variable {p : Store} {ms : List Model} {m : Model} {w : Workspace}

/-! ### Models -/

/-- The graph of merged results that a project has for a model. -/
def Store.mergedFor (p : Store) (m : Model) : Result MergedGraph := do
  MergedGraph.build p (← p.seen.graph) m

/-- What is asked of the graphs that are kept. -/
inductive GraphCall where
  | ofField (f : Field)
  | ofModel (m : Model)

namespace GraphCall

def run (w : Workspace) : GraphCall → Workspace
  | .ofField f => (joinGraphs f w).2
  | .ofModel m => (mergedGraph m w).2

/-- The model for which a call may ask for merged results. -/
def Asks (p : Project) : GraphCall → Model → Prop
  | .ofField f, m => f.view.model p = .ok (some m)
  | .ofModel m', m => m' = m

end GraphCall

/-- A workspace that keeps the graph of joins of its project and, of merged results, a graph for one
of some models. -/
structure Workspace.Caches (p : Store) (ms : List Model) (w : Workspace) : Prop where
  project : w.project = p
  graph : w.HoldsGraph
  merged : ∀ x, w.merged = some x → ∃ m ∈ ms, p.mergedFor m = .ok x

namespace Workspace.Caches

theorem fresh (p : Store) (ms : List Model) : Caches p ms { project := p } where
  project := rfl
  graph _ h := nomatch h
  merged _ h := nomatch h

theorem mergedGraph_eq (hw : Caches p ms w) (m : Model) :
    (mergedGraph m w).1 = w.merged.elim (p.mergedFor m) .ok ∧
      (mergedGraph m w).2.merged = (mergedGraph m w).1.toOption ∧
      (m ∈ ms → Caches p ms (mergedGraph m w).2) := by
  obtain ⟨hgraph, hkept, hholds⟩ := joinGraph_of_holdsGraph hw.graph
  have hcached := hw.merged
  obtain rfl := hw.project
  rcases hrun : Action.joinGraph w with ⟨e | g, w1⟩
  · rw [hrun] at hgraph hkept hholds
    have hfails : ∀ m, w.project.mergedFor m = .error e := fun m => by
      rw [Store.mergedFor, ← hgraph]
      rfl
    have hnone : w.merged = none := by
      cases hmerged : w.merged with
      | none => rfl
      | some x =>
        obtain ⟨m', -, hm'⟩ := hcached x hmerged
        cases (hfails m').symm.trans hm'
    change w1 = _ at hkept
    unfold mergedGraph
    rw [bind_of_eq_error hrun, hnone]
    rw [hkept] at hholds ⊢
    exact ⟨(hfails m).symm, hnone, fun _ => ⟨rfl, hholds, hcached⟩⟩
  · rw [hrun] at hgraph hkept hholds
    have hown : ∀ m, w.project.mergedFor m = MergedGraph.build w.project g m := fun m => by
      rw [Store.mergedFor, ← hgraph]
      rfl
    change w1 = _ at hkept
    unfold mergedGraph
    rw [bind_of_eq_ok hrun, get_bind]
    rw [hkept] at hholds ⊢
    cases hmerged : w.merged with
    | some x =>
      rw [hmerged] at hcached
      exact ⟨rfl, rfl, fun _ => ⟨rfl, hholds, hcached⟩⟩
    | none =>
      rw [hown]
      dsimp only
      cases hbuild : MergedGraph.build w.project g m with
      | error e =>
        exact ⟨rfl, rfl, fun _ => ⟨rfl, hholds, fun _ h => nomatch h⟩⟩
      | ok x =>
        refine ⟨rfl, rfl, fun hm => ⟨rfl, hholds, fun y hy => ⟨m, hm, ?_⟩⟩⟩
        rw [hown, hbuild, Option.some.inj hy]

end Workspace.Caches

/-- Workspaces for the same models; what they keep of merged results is related. -/
def Workspace.Caching (R : Option MergedGraph → Option MergedGraph → Prop) (p : Store)
    (ms : List Model) (w w' : Workspace) : Prop :=
  w.Caches p ms ∧ w'.Caches p ms ∧ R w.merged w'.merged

section

variable {R : Option MergedGraph → Option MergedGraph → Prop}

instance : Pane (Workspace.Caching R p ms) where
  seen h := by rw [h.1.project, h.2.1.project]
  tells w w' h := by
    obtain ⟨heq, hkept, hholds⟩ := joinGraph_of_holdsGraph h.1.graph
    obtain ⟨heq', hkept', hholds'⟩ := joinGraph_of_holdsGraph h.2.1.graph
    refine ⟨by rw [heq, heq', h.1.project, h.2.1.project], ?_, fun _ _ => by rw [hkept]⟩
    rw [hkept] at hholds ⊢
    rw [hkept'] at hholds' ⊢
    exact ⟨⟨h.1.project, hholds, h.1.merged⟩, ⟨h.2.1.project, hholds', h.2.1.merged⟩, h.2.2⟩

theorem derivedGraphs_caching (hrefl : ∀ a, R a a)
    (hsame : ∀ w w', Workspace.Caching R p ms w w' → ∀ m ∈ ms,
      w'.merged.elim (p.mergedFor m) .ok = w.merged.elim (p.mergedFor m) .ok)
    {f : Field} (hf : ∀ m, f.view.model p = .ok (some m) → m ∈ ms) :
    Follows (Workspace.Caching R p ms) Eq (derivedGraphs f) := by
  refine derivedGraphs_follows ?_
  rintro _ m ⟨v, v', hv, rfl⟩ hm w w' hw
  rw [hv.1.project] at hm
  obtain ⟨heq, hmerged, hcaches⟩ := hw.1.mergedGraph_eq m
  obtain ⟨heq', hmerged', hcaches'⟩ := hw.2.1.mergedGraph_eq m
  have htold := hsame w w' hw m (hf m hm)
  have hresult : (mergedGraph m w').1 = (mergedGraph m w).1 := by rw [heq, heq', htold]
  refine ⟨hresult, ⟨hcaches (hf m hm), hcaches' (hf m hm), ?_⟩, fun _ _ => ?_⟩
  · rw [hmerged, hmerged', hresult]
    exact hrefl _
  · rw [hw.1.project, (hcaches (hf m hm)).project]

end

/-- The workspace of a project after some calls, whether they succeed or not. -/
def Store.afterCalls (p : Store) (calls : List GraphCall) : Workspace :=
  calls.foldl GraphCall.run { project := p }

theorem Workspace.Caches.run (hw : Caches p ms w) {c : GraphCall} (hc : ∀ m, c.Asks p m → m ∈ ms) :
    Caches p ms (c.run w) := by
  cases c with
  | ofModel m => exact (hw.mergedGraph_eq m).2.2 (hc m rfl)
  | ofField f =>
    have hderived : Caches p ms (derivedGraphs f w).2 :=
      (derivedGraphs_caching (fun _ => rfl) (fun w w' h m _ => by rw [h.2.2]) hc w w
        ⟨hw, hw, rfl⟩).2.1.1
    change Caches p ms (joinGraphs f w).2
    rw [joinGraphs_eq, get_bind]
    cases w.known (w.project.userKey, f.id) with
    | some found => exact hw
    | none =>
      dsimp only
      rcases hrun : derivedGraphs f w with ⟨e | found, w1⟩
      · rw [bind_of_eq_error hrun]
        rwa [hrun] at hderived
      · rw [bind_of_eq_ok hrun]
        rw [hrun] at hderived
        exact ⟨hderived.project, hderived.graph, hderived.merged⟩

theorem Workspace.Caches.afterCalls {calls : List GraphCall}
    (h : ∀ c ∈ calls, ∀ m, c.Asks p m → m ∈ ms) : Caches p ms (p.afterCalls calls) := by
  induction calls using List.reverseRecOn with
  | nil => exact .fresh p ms
  | append_singleton calls c ih =>
    unfold Store.afterCalls
    rw [foldl_append]
    exact (ih fun c hc => h c (mem_append_left _ hc)).run (h c (by simp))

/-- **Each model gets its own graph of merged results, whatever was asked before, exactly if all
models have the same graph.**  Then the join graphs of a field do not hang on what was asked before
either. -/
theorem Store.merged_own_iff (p : Store) (ms : List Model) :
    (∀ calls : List GraphCall, (∀ c ∈ calls, ∀ m, c.Asks p m → m ∈ ms) →
      (∀ m ∈ ms, (mergedGraph m (p.afterCalls calls)).1 = p.mergedFor m) ∧
      ∀ f : Field, (∀ m, f.view.model p = .ok (some m) → m ∈ ms) →
        (derivedGraphs f (p.afterCalls calls)).1 = (derivedGraphs f { project := p }).1) ↔
    ∀ m ∈ ms, ∀ m' ∈ ms, ∀ x, p.mergedFor m = .ok x → p.mergedFor m' = .ok x := by
  constructor
  · intro h m hm m' hm' x hx
    -- the model that asks first decides for the other one
    have hfirst := (Workspace.Caches.fresh p ms).mergedGraph_eq m
    have hown := (h [.ofModel m] fun c hc m'' => by
      cases mem_singleton.mp hc
      rintro rfl
      exact hm).1 m' hm'
    have hcaches : (p.afterCalls [.ofModel m]).Caches p ms := hfirst.2.2 hm
    have hkept : (p.afterCalls [.ofModel m]).merged = some x :=
      hfirst.2.1.trans (by rw [hfirst.1]; exact congrArg _ hx)
    rw [← hown, (hcaches.mergedGraph_eq m').1, hkept, Option.elim]
  · intro hsame calls hcalls
    have htold : ∀ w : Workspace, w.Caches p ms → ∀ m ∈ ms,
        w.merged.elim (p.mergedFor m) .ok = p.mergedFor m := by
      intro w hw m hm
      cases hmerged : w.merged with
      | none => rfl
      | some x =>
        obtain ⟨m', hm', hx⟩ := hw.merged x hmerged
        exact (hsame m' hm' m hm x hx).symm
    have hcaches := Workspace.Caches.afterCalls hcalls
    refine ⟨fun m hm => ?_, fun f hf => ?_⟩
    · rw [(hcaches.mergedGraph_eq m).1, htold _ hcaches m hm]
    · refine (derivedGraphs_caching (R := fun _ _ => True) (fun _ => trivial)
        (fun w w' h m hm => ?_) hf _ _ ⟨.fresh p ms, hcaches, trivial⟩).1
      rw [htold w h.1 m hm, htold w' h.2.1 m hm]

def Calls.plain : Model := ⟨[("name", .text "m")]⟩

def Calls.mapping : Model :=
  ⟨[("mappings", .map [("when", .map [("fields", .texts ["calls.made_date"])])])]⟩

/-- A model whose mapping is refused gets the graph of the model that was asked for before it. -/
theorem Calls.graph_of_another_model :
    (session.store.mergedFor mapping).toOption.isNone ∧
      (mergedGraph mapping (session.store.afterCalls [.ofModel plain])).1.toOption.isSome := by
  refine ⟨?_, ?_⟩ <;> decide +kernel

/-! ### Fields -/

namespace Action

variable {α β : Type} {w' w1 w2 : Workspace} {l : List α}

theorem Settles.mapM {f : α → Action β} (hf : ∀ a, Settles (f a)) (l : List α) :
    Settles (l.mapM f) := by
  induction l with
  | nil => exact .of_pure _
  | cons a l ih =>
    rw [mapM_cons]
    exact (hf a).bind fun b => ih.bind fun bs => .of_pure _

theorem Settles.filterM {f : α → Action Bool} (hf : ∀ a, Settles (f a)) (l : List α) :
    Settles (l.filterM f) := by
  induction l with
  | nil => exact .of_pure _
  | cons a l ih =>
    rw [filterM_cons]
    exact (hf a).bind fun b => ih.bind fun bs => .of_pure _

theorem Settles.forall₂_mapM {f : α → Action β} (hf : ∀ a, Settles (f a)) {r : List β}
    (h : l.mapM f w = (.ok r, w1)) (hw : w1.Extends w2) :
    Forall₂ (fun a b => f a w2 = (.ok b, w2)) l r := by
  induction l generalizing w r with
  | nil =>
    obtain ⟨rfl, -⟩ := pure_eq_ok.mp h
    exact .nil
  | cons a l ih =>
    rw [mapM_cons] at h
    obtain ⟨b, w3, hb, h⟩ := of_bind h
    obtain ⟨bs, hbs, rfl⟩ := of_bind_pure h
    have hleft : w3.Extends w2 := trans_of _ ((Settles.mapM hf l).moves.of_eq hbs) hw
    exact .cons ((hf a).again hb hleft) (ih hbs)

theorem Settles.filterM_eq {f : α → Action Bool} (hf : ∀ a, Settles (f a)) {r : List α}
    (h : l.filterM f w = (.ok r, w1)) (hw : w1.Extends w2) :
    r = l.filter (fun a => (f a w2).1.toOption.getD false) ∧
      ∀ a ∈ l, ∃ b, f a w2 = (.ok b, w2) := by
  induction l generalizing w r with
  | nil =>
    obtain ⟨rfl, -⟩ := pure_eq_ok.mp h
    exact ⟨rfl, fun _ ha => nomatch ha⟩
  | cons a l ih =>
    rw [filterM_cons] at h
    obtain ⟨b, w3, hb, h⟩ := of_bind h
    obtain ⟨bs, hbs, rfl⟩ := of_bind_pure h
    obtain ⟨rfl, hall⟩ := ih hbs
    have hagain := (hf a).again hb (trans_of _ ((Settles.filterM hf l).moves.of_eq hbs) hw)
    refine ⟨?_, forall_mem_cons.mpr ⟨⟨b, hagain⟩, hall⟩⟩
    rw [filter_cons, hagain]
    cases b <;> rfl

/-- Two fields share a join graph, by what is known of them in a workspace. -/
def Share (w : Workspace) (f g : Field) : Prop :=
  ∃ own others, joinGraphs f w = (.ok own, w) ∧ joinGraphs g w = (.ok others, w) ∧
    ∃ j ∈ own, j ∈ others

open Classical in
/-- The joinable fields are those listed that share a join graph with one of the given fields, then
and at any later time. -/
theorem joinableFields_eq_ok {fields found : List Field} {expanded : Bool}
    (h : joinableFields fields expanded w = (.ok found, w')) :
    w.Extends w' ∧ ∃ listed, w.project.seen.fields none true expanded none = .ok listed ∧
      ∀ v, w'.Extends v → found = listed.filter fun f => ∃ g ∈ fields, Share v f g := by
  obtain ⟨graphs, w1, hgraphs, h⟩ := of_bind h
  replace h := of_project_bind h
  obtain ⟨listed, hlisted, h⟩ := of_lift_bind h
  have hsettles : ∀ f : Field, Settles (do
      return (← joinGraphs f).any graphs.flatten.contains : Action Bool) := fun f =>
    (joinGraphs_settles f).bind fun _ => .of_pure _
  have hmoved := (Settles.mapM joinGraphs_settles fields).moves.of_eq hgraphs
  have hmoved' := (Settles.filterM hsettles listed).moves.of_eq h
  refine ⟨trans_of _ hmoved hmoved', listed, ?_, fun v hv => ?_⟩
  · rwa [← hmoved.project]
  · have hasked := Settles.forall₂_mapM joinGraphs_settles hgraphs (trans_of _ hmoved' hv)
    obtain ⟨rfl, hall⟩ := Settles.filterM_eq hsettles h hv
    refine filter_congr fun f hf => ?_
    obtain ⟨b, hb⟩ := hall f hf
    rw [hb]
    obtain ⟨own, hown, rfl⟩ := of_bind_pure hb
    refine Bool.eq_iff_iff.mpr ?_
    simp only [Except.toOption, Option.getD_some, any_eq_true, contains_iff_mem, mem_flatten,
      decide_eq_true_eq]
    constructor
    · rintro ⟨j, hj, others, hothers, hjo⟩
      obtain ⟨g, hg, hrun⟩ := exists_left_of_forall₂ hasked hothers
      exact ⟨g, hg, own, others, hown, hrun, j, hj, hjo⟩
    · rintro ⟨g, hg, own', others, hown', hrun, j, hj, hjo⟩
      obtain ⟨others', hothers, hrun'⟩ := exists_right_of_forall₂ hasked hg
      cases hown.symm.trans hown'
      cases hrun.symm.trans hrun'
      exact ⟨j, hj, others, hothers, hjo⟩

/-- **The joinable fields are those that share a join graph with one of the given fields**, and more
given fields never have fewer. -/
theorem joinable_fields_grow {fields found : List Field} {expanded : Bool}
    (h : joinableFields fields expanded w = (.ok found, w')) :
    (∃ listed, w.project.seen.fields none true expanded none = .ok listed ∧ found <+ listed ∧
      ∀ f ∈ listed, f ∈ found ↔ ∃ g ∈ fields, Share w' f g) ∧
    ∀ {more found' : List Field} {w1 w2 : Workspace}, w'.Extends w1 → fields ⊆ more →
      joinableFields more expanded w1 = (.ok found', w2) → found <+ found' := by
  classical
  obtain ⟨hext, listed, hlisted, hfound⟩ := joinableFields_eq_ok h
  refine ⟨⟨listed, hlisted, ?_, fun f hf => ?_⟩, fun hw1 hsub h' => ?_⟩
  · rw [hfound w' (refl_of _ w')]
    exact filter_sublist
  · rw [hfound w' (refl_of _ w'), mem_filter, decide_eq_true_eq, and_iff_right hf]
  · obtain ⟨hext', listed', hlisted', hfound'⟩ := joinableFields_eq_ok h'
    rw [hw1.project, hext.project, hlisted] at hlisted'
    cases hlisted'
    rw [hfound _ (trans_of _ hw1 hext'), hfound' _ (refl_of _ _)]
    refine monotone_filter_right _ fun f hf => ?_
    simp only [decide_eq_true_eq] at hf ⊢
    exact hf.imp fun g => And.imp_left fun hg => hsub hg

end Action

/-! Calls without a date, with a measure of merged results that has no join graphs. -/

namespace Calls

def share : Definition :=
  [("name", .text "share"), ("field_type", .text "measure"), ("type", .text "number"),
    ("is_merged_result", .bool true), ("sql", .text "$\x7bn\x7d")]

def undated : Workspace where
  project :=
    { session.store with
      views := [⟨[("name", .text "calls"), ("model_name", .text "m"), ("identifiers", .list [])],
        some 0⟩]
      shelves := [⟨[count, share], .null⟩] }

/-- The names of the fields that are joinable with the fields of some names. -/
def joinable (names : List String) : Action (List String) := do
  let p ← Action.project
  let fields ← names.mapM fun n => liftM (p.getField n)
  return (← joinableFields fields false).map Field.id

/-- A field that shares no join graph with another one is joinable with both of them together, and
not with the other one alone. -/
theorem joinable_by_one_of_two :
    ((joinable ["calls.share"]) undated).1.toOption = some [] ∧
      ((joinable ["calls.share", "calls.n"]) undated).1.toOption = some ["calls.n"] := by
  refine ⟨?_, ?_⟩ <;> decide +kernel

/-- Sales as well, in a join graph of their own. -/
def apart : Workspace where
  project :=
    { undated.project with
      views := undated.project.views ++
        [⟨[("name", .text "sales"), ("model_name", .text "m"), ("identifiers", .list [])], some 1⟩]
      shelves := undated.project.shelves ++ [⟨[count], .null⟩] }
  remembered := [(("", "calls.n"), ["subquery_0"]), (("", "sales.n"), ["subquery_1"])]

def given (names : List String) : Result (List Field) := names.mapM (apart.project.seen.getField ·)

end Calls

open Calls in
theorem Action.joinable_fields_grow_calls : ∃ fields more found found' w w',
    given ["calls.share", "calls.n"] = .ok fields ∧ given ["sales.n"] = .ok more ∧
    joinableFields fields false apart = (.ok found, w) ∧ found.map Field.id = ["calls.n"] ∧
    joinableFields (fields ++ more) false w = (.ok found', w') ∧
    found'.map Field.id = ["calls.n", "sales.n"] ∧
    found <+ found' ∧ ∀ f ∈ found', ∃ g ∈ fields ++ more, Share w' f g := by
  have hok : ((do
      let fields ← liftM (given ["calls.share", "calls.n"])
      let more ← liftM (given ["sales.n"])
      let found ← joinableFields fields false
      let found' ← joinableFields (fields ++ more) false
      return (found.map Field.id, found'.map Field.id)) apart).1.toOption.any
        (· == (["calls.n"], ["calls.n", "sales.n"])) = true := by
    decide +kernel
  obtain ⟨ids, w', hrun, hids⟩ := exists_of_any hok
  obtain ⟨fields, hfields, hrun⟩ := of_lift_bind hrun
  obtain ⟨more, hmore, hrun⟩ := of_lift_bind hrun
  obtain ⟨found, w, hfound, hrun⟩ := of_bind hrun
  obtain ⟨found', hfound', rfl⟩ := of_bind_pure hrun
  obtain ⟨hfew, hall⟩ := Prod.mk.inj (eq_of_beq hids)
  obtain ⟨-, hgrow⟩ := joinable_fields_grow hfound
  obtain ⟨⟨listed, -, hsub, hmem⟩, -⟩ := joinable_fields_grow hfound'
  exact ⟨fields, more, found, found', w, w', hfields, hmore, hfound, hfew, hfound', hall,
    hgrow (refl_of _ w) (by simp) hfound', fun f hf => (hmem f (hsub.subset hf)).mp hf⟩

end SemanticLayer
