import SemanticLayer.Proofs.Workspace
import SemanticLayer.Query.Merged

/-!
# Runs side by side

An action follows a relation between workspaces (`Action.Follows`) if from related workspaces it
ends in the same way and leaves related ones behind; a second relation holds between the project
before and after if it succeeds.  The ways to put actions together keep it so.

A frame shows its user the same project on both sides, a pane moreover tells the same graph of
joins, a glass the same join graphs of fields, and a veil holds the same conditions.  A window needs
a change of the project (`Action.Windowed`); where that is not followed, queries do without.
-/

namespace SemanticLayer

open List

variable {c : Prop} {f : Field}

/-- Nothing is said of the project before and after. -/
def Store.Any (_ _ : Store) : Prop := True

instance : IsPreorder Store Store.Any where
  refl _ := trivial
  trans _ _ _ _ _ := trivial

/-- A way to rewrite requests.  The dimensions hang on nothing but those that were there. -/
def Request.IsRewriting (f : Request → Request) : Prop :=
  ∀ r r' : Request, r'.dimensions = r.dimensions → (f r').dimensions = (f r).dimensions

namespace Action

theorem edit_apply (change : Store → Result Store) (w : Workspace) :
    edit change w = match change w.project with
      | .error e => (.error e, w)
      | .ok p => (.ok ⟨⟩, { w with project := p }) := by
  unfold edit
  rw [get_bind]
  cases change w.project with
  | error e => exact bind_of_eq_error (lift_apply _ _)
  | ok p => exact bind_of_eq_ok (lift_apply _ _)

variable {V : Workspace → Workspace → Prop} {S : Store → Store → Prop} {α β σ : Type}

/-- From related workspaces the action ends in the same way, and leaves related ones; if it
succeeds, the project is related to the one before. -/
def Follows (V : Workspace → Workspace → Prop) (S : Store → Store → Prop) (a : Action α) : Prop :=
  ∀ w w', V w w' → (a w').1 = (a w).1 ∧ V (a w).2 (a w').2 ∧
    ∀ x, (a w).1 = .ok x → S w.project (a w).2.project

/-- The projects on the first side of a relation. -/
def Shows (V : Workspace → Workspace → Prop) (p : Store) : Prop :=
  ∃ w w', V w w' ∧ w.project = p

namespace Follows

variable {a : Action α}

variable {f : α → Action β} {l : List α}

theorem of_throw (e : Error) : Follows V S (throw e : Action α) :=
  fun _ _ hw => ⟨rfl, hw, fun _ h => nomatch h⟩

theorem ite {_ : Decidable c} {b : Action α} (ha : Follows V S a) (hb : Follows V S b) :
    Follows V S (if c then a else b) := by
  split_ifs
  · exact ha
  · exact hb

theorem get_bind {f : Workspace → Action β} (hsm : ∀ w w', V w w' → f w' = f w)
    (hf : ∀ w w', V w w' → Follows V S (f w)) : Follows V S (get >>= f) := by
  intro w w' hw
  rw [Action.get_bind, hsm w w' hw]
  exact hf w w' hw w w' hw

theorem of_modify {g : Workspace → Workspace} (hg : ∀ w w', V w w' → V (g w) (g w'))
    (hpr : ∀ w, S w.project (g w).project) : Follows V S (modify g : Action PUnit) :=
  fun w w' hw => ⟨rfl, hg w w' hw, fun _ _ => hpr w⟩

theorem any (ha : Follows V S a) : Follows V Store.Any a := by
  intro w w' hw
  obtain ⟨heq, hV, -⟩ := ha w w' hw
  exact ⟨heq, hV, fun _ _ => trivial⟩

theorem outcome_any (ha : Follows V S a) : Follows V Store.Any (outcome a) := by
  intro w w' hw
  obtain ⟨heq, hV, -⟩ := ha w w' hw
  exact ⟨congrArg Except.ok heq, hV, fun _ _ => trivial⟩

theorem tryCatch_any {h : Error → Action α} (ha : Follows V S a)
    (hh : ∀ e, Follows V Store.Any (h e)) : Follows V Store.Any (tryCatch a h) := by
  intro w w' hw
  obtain ⟨heq, hV, -⟩ := ha w w' hw
  rw [tryCatch_apply, tryCatch_apply]
  rcases hrun : a w with ⟨r, w1⟩
  rcases hrun' : a w' with ⟨r', w1'⟩
  rw [hrun, hrun'] at heq hV
  subst heq
  cases r' with
  | error e =>
    obtain ⟨heq, hV, -⟩ := hh e w1 w1' hV
    exact ⟨heq, hV, fun _ _ => trivial⟩
  | ok x => exact ⟨rfl, hV, fun _ _ => trivial⟩

variable [IsPreorder Store S]

theorem of_eq (ha : Follows V Eq a) : Follows V S a := by
  intro w w' hw
  obtain ⟨heq, hV, hpr⟩ := ha w w' hw
  exact ⟨heq, hV, fun x hx => hpr x hx ▸ refl_of S w.project⟩

theorem of_pure (a : α) : Follows V S (pure a : Action α) :=
  fun w _ hw => ⟨rfl, hw, fun _ _ => refl_of S w.project⟩

theorem of_result (r : Result α) : Follows V S (liftM r : Action α) := fun w w' hw => by
  exact ⟨rfl, hw, fun _ _ => refl_of S w.project⟩

theorem bind_of (ha : Follows V S a)
    (hf : ∀ x w w' w1, V w w' → a w = (.ok x, w1) → Follows V S (f x)) : Follows V S (a >>= f) := by
  intro w w' hw
  obtain ⟨heq, hV, hS⟩ := ha w w' hw
  rcases hrun : a w with ⟨r, w1⟩
  rcases hrun' : a w' with ⟨r', w1'⟩
  rw [hrun, hrun'] at heq hV
  rw [hrun] at hS
  subst heq
  cases r' with
  | error e =>
    rw [bind_of_eq_error hrun, bind_of_eq_error hrun']
    exact ⟨rfl, hV, fun _ h => nomatch h⟩
  | ok x =>
    rw [bind_of_eq_ok hrun, bind_of_eq_ok hrun']
    obtain ⟨heq, hV, hS'⟩ := hf x w w' w1 hw hrun w1 w1' hV
    exact ⟨heq, hV, fun y hy => trans_of S (hS x rfl) (hS' y hy)⟩

theorem bind (ha : Follows V S a) (hf : ∀ x, Follows V S (f x)) : Follows V S (a >>= f) :=
  ha.bind_of fun x _ _ _ _ _ => hf x

theorem result_bind_of {r : Result α} (hf : ∀ x, r = .ok x → Follows V S (f x)) :
    Follows V S (liftM r >>= f) :=
  (of_result r).bind_of fun x _ _ _ _ h => hf x (lift_eq_ok.mp h).1

theorem result_bind {r : Result α} (hf : ∀ x, Follows V S (f x)) : Follows V S (liftM r >>= f) :=
  (of_result r).bind hf

theorem guard {_ : Decidable c} {a : Action PUnit} {f : PUnit → Action β} (ha : Follows V S a)
    (hf : ∀ u, Follows V S (f u)) : Follows V S (if c then a >>= f else f ⟨⟩) :=
  (ha.bind hf).ite (hf _)

theorem mapM (hf : ∀ x ∈ l, Follows V S (f x)) : Follows V S (l.mapM f) := by
  induction l with
  | nil => exact of_pure _
  | cons a l ih =>
    rw [mapM_cons]
    exact (hf a (mem_cons_self ..)).bind fun _ =>
      (ih fun x hx => hf x (mem_cons_of_mem _ hx)).bind fun _ => of_pure _

theorem foldlM_of {P : σ → Prop} {f : σ → α → Action σ} {s : σ} (h0 : P s)
    (hf : ∀ s, ∀ x ∈ l, P s → Follows V S (f s x))
    (hs : ∀ s x s' w w', P s → f s x w = (.ok s', w') → P s') : Follows V S (l.foldlM f s) := by
  induction l generalizing s with
  | nil => exact of_pure _
  | cons a l ih =>
    exact (hf s a (mem_cons_self ..) h0).bind_of fun s' w _ w1 _ hrun =>
      ih (hs s a s' w w1 h0 hrun) fun s x hx => hf s x (mem_cons_of_mem _ hx)

theorem foldlM {f : σ → α → Action σ} (hf : ∀ s, ∀ x ∈ l, Follows V S (f s x)) (s : σ) :
    Follows V S (l.foldlM f s) :=
  foldlM_of (P := fun _ => True) trivial (fun s x hx _ => hf s x hx)
    fun _ _ _ _ _ _ _ => trivial

theorem anyM {f : α → Action Bool} (hf : ∀ x, Follows V S (f x)) (l : List α) :
    Follows V S (l.anyM f) := by
  induction l with
  | nil => exact of_pure _
  | cons a l ih =>
    rw [anyM_cons]
    exact (hf a).bind fun b => (of_pure _).ite ih

theorem filterMapM {f : α → Action (Option β)} (hf : ∀ x, Follows V S (f x)) (l : List α) :
    Follows V S (l.filterMapM f) := by
  induction l with
  | nil => exact of_pure _
  | cons a l ih =>
    rw [filterMapM_cons]
    refine (hf a).bind fun b => ?_
    cases b with
    | none => exact ih
    | some b => exact ih.bind fun _ => of_pure _

theorem filterM {f : α → Action Bool} (hf : ∀ x ∈ l, Follows V S (f x)) :
    Follows V S (l.filterM f) := by
  have haux : ∀ (l acc : List α), (∀ x ∈ l, Follows V S (f x)) → Follows V S (l.filterAuxM f acc) := by
    intro l
    induction l with
    | nil => exact fun acc _ => of_pure _
    | cons a l ih =>
      intro acc hf
      rw [forall_mem_cons] at hf
      exact hf.1.bind fun b => ih _ hf.2
  exact (haux l [] hf).bind fun _ => of_pure _

end Follows

/-! ### Two actions -/

/-- From related workspaces the two actions end alike, and leave related ones. -/
def Parallel (V : Workspace → Workspace → Prop) {β : Type} (R : α → β → Prop) (a : Action α)
    (b : Action β) : Prop :=
  ∀ w w', V w w' → Result.Related R (a w).1 (b w').1 ∧ V (a w).2 (b w').2

namespace Parallel

variable {γ δ : Type} {R : α → β → Prop} {S : γ → δ → Prop}

theorem of_pure {a : α} {b : β} (h : R a b) : Parallel V R (pure a) (pure b) :=
  fun _ _ hw => ⟨.ok h, hw⟩

theorem of_result {x : Result α} {y : Result β} (h : Result.Related R x y) :
    Parallel V R (liftM x) (liftM y) := fun w w' hw => by
  exact ⟨h, hw⟩

theorem bind {a : Action α} {b : Action β} {f : α → Action γ} {g : β → Action δ}
    (hab : Parallel V R a b) (hfg : ∀ x y, R x y → Parallel V S (f x) (g y)) :
    Parallel V S (a >>= f) (b >>= g) := by
  intro w w' hw
  obtain ⟨hrel, hV⟩ := hab w w' hw
  rcases hrun : a w with ⟨r, w1⟩
  rcases hrun' : b w' with ⟨r', w1'⟩
  rw [hrun, hrun'] at hrel hV
  cases hrel with
  | error e =>
    rw [bind_of_eq_error hrun, bind_of_eq_error hrun']
    exact ⟨.error e, hV⟩
  | ok h =>
    rw [bind_of_eq_ok hrun, bind_of_eq_ok hrun']
    exact hfg _ _ h w1 w1' hV

theorem ite {_ : Decidable c} {a a' : Action α} {b b' : Action β} (h : Parallel V R a b)
    (h' : Parallel V R a' b') :
    Parallel V R (if c then a else a') (if c then b else b') := by
  split_ifs
  · exact h
  · exact h'

theorem foldlM {τ : Type} {R : σ → τ → Prop} {f : σ → α → Action σ} {g : τ → α → Action τ}
    {l : List α} (hfg : ∀ s t, ∀ x ∈ l, R s t → Parallel V R (f s x) (g t x)) {s : σ} {t : τ}
    (h : R s t) : Parallel V R (l.foldlM f s) (l.foldlM g t) := by
  induction l generalizing s t with
  | nil => exact of_pure h
  | cons a l ih =>
    exact (hfg s t a (mem_cons_self ..) h).bind fun s' t' h' =>
      ih (fun s t x hx => hfg s t x (mem_cons_of_mem _ hx)) h'

end Parallel

/-- What follows the same action may differ, and depend on what that action can return. -/
theorem Follows.bind_parallel_of {γ δ : Type} {S : γ → δ → Prop} {a : Action α}
    {f : α → Action γ} {g : α → Action δ} (ha : Follows V Store.Any a)
    (hfg : ∀ x w w1, a w = (.ok x, w1) → Parallel V S (f x) (g x)) :
    Parallel V S (a >>= f) (a >>= g) := by
  intro w w' hw
  have hrel : Parallel V (fun x y => x = y ∧ ∃ w w1, a w = (.ok x, w1)) a a := by
    intro w w' hw
    obtain ⟨heq, hV, -⟩ := ha w w' hw
    refine ⟨?_, hV⟩
    rw [heq]
    rcases hrun : a w with ⟨e | x, w1⟩
    · exact .error e
    · exact .ok ⟨rfl, w, w1, hrun⟩
  exact hrel.bind (fun x y ⟨h, w, w1, hrun⟩ => h ▸ hfg x w w1 hrun) w w' hw

theorem Follows.bind_parallel {γ δ : Type} {S : γ → δ → Prop} {a : Action α} {f : α → Action γ}
    {g : α → Action δ} (ha : Follows V Store.Any a) (hfg : ∀ x, Parallel V S (f x) (g x)) :
    Parallel V S (a >>= f) (a >>= g) :=
  ha.bind_parallel_of fun x _ _ _ => hfg x

/-! ### Frames -/

/-- Related workspaces show their user the same project. -/
class Frame (V : Workspace → Workspace → Prop) : Prop where
  seen : ∀ {w w'}, V w w' → w'.project.seen = w.project.seen

/-- Related workspaces hold the same conditions. -/
class Carries (V : Workspace → Workspace → Prop) : Prop extends Frame V where
  rows : ∀ {w w'}, V w w' → w'.rows = w.rows
  groups : ∀ {w w'}, V w w' → w'.groups = w.groups

/-- Related workspaces hold the same conditions, and stay related when conditions are written to
both and when their requests are rewritten.  Conditions on groups are as many as some related
workspaces hold. -/
class Holds (V : Workspace → Workspace → Prop) : Prop extends Carries V where
  writeRequest : ∀ {w w'} {f : Request → Request}, Request.IsRewriting f → V w w' →
    V { w with request := f w.request } { w' with request := f w'.request }
  writeRows : ∀ {w w'} (rows : List Entry), V w w' →
    V { w with rows := rows } { w' with rows := rows }
  writeGroups : ∀ {w w' v v'} (groups : List Entry), V w w' → V v v' →
    groups.length = v.groups.length → V { w with groups := groups } { w' with groups := groups }

theorem Follows.project_bind [Frame V] {f : Project → Action β}
    (hf : ∀ p, Shows V p → Follows V S (f p.seen)) : Follows V S (project >>= f) := by
  intro w w' hw
  rw [project_bind_apply, Frame.seen hw]
  exact hf w.project ⟨w, w', hw, rfl⟩ w w' hw

theorem Follows.of_project [Frame V] [IsPreorder Store S] : Follows V S project := fun w _ hw =>
  ⟨congrArg Except.ok (Frame.seen hw), hw, fun _ _ => refl_of S w.project⟩

theorem Parallel.project_bind [Frame V] {R : α → β → Prop} {f : Project → Action α}
    {g : Project → Action β} (h : ∀ p, Shows V p → Parallel V R (f p.seen) (g p.seen)) :
    Parallel V R (project >>= f) (project >>= g) := by
  intro w w' hw
  rw [project_bind_apply, project_bind_apply, Frame.seen hw]
  exact h w.project ⟨w, w', hw, rfl⟩ w w' hw

theorem Follows.of_request [Holds V] [IsPreorder Store S] {g : Request → Request}
    (hg : Request.IsRewriting g) :
    Follows V S (modify (fun w => { w with request := g w.request }) : Action PUnit) :=
  .of_modify (fun _ _ hw => Holds.writeRequest hg hw) fun _ => refl_of S _

end Action

inductive Project.Finds (p : Project) (f : Field) : Prop where
  | named {n : String} {view : Option String} {asked : Option Model}
      (h : p.getField n view asked = .ok f)
  | byName {n : String} {view : Option String} {asked : Option Model}
      (h : p.getFieldByName n view asked = .ok f)
  | listed {view : Option String} {hidden expanded : Bool} {asked : Option Model} {fs : List Field}
      (h : p.fields view hidden expanded asked = .ok fs) (hf : f ∈ fs)

/-! ### Veils -/

namespace Action

variable {V : Workspace → Workspace → Prop} {S : Store → Store → Prop} {α : Type}

/-- Related workspaces know the same graph of joins. -/
class Pane (V : Workspace → Workspace → Prop) : Prop extends Frame V where
  tells : Follows V Eq joinGraph

/-- Related workspaces know the same join graphs. -/
class Glass (V : Workspace → Workspace → Prop) : Prop extends Pane V where
  tellsOf : ∀ {p : Store} {f : Field}, Shows V p → p.seen.Finds f → Follows V Eq (joinGraphs f)

/-- Related workspaces know the same join graphs and hold the same conditions. -/
class Veil (V : Workspace → Workspace → Prop) : Prop extends Glass V, Holds V

theorem Pane.joinGraph [Pane V] [IsPreorder Store S] : Follows V S joinGraph := Pane.tells.of_eq

theorem Glass.joinGraphs [Glass V] [IsPreorder Store S] {p : Store} (hp : Shows V p)
    (hf : p.seen.Finds f) : Follows V S (joinGraphs f) :=
  (Glass.tellsOf hp hf).of_eq

/-! Workspaces that know the same graphs and remember the same know the same join graphs. -/

/-- Related workspaces know the same graphs, and they remember the same for their user and stay
related when they remember more. -/
class Remembers (V : Workspace → Workspace → Prop) : Prop extends Pane V where
  mergedGraph : ∀ {p p' : Store} {f : Field} {m : Model}, Shows V p → p.seen.Finds f →
    Shows V p' → f.view.model p' = .ok (some m) → Follows V Eq (mergedGraph m)
  sameMemory : ∀ {w w'} (id : String), V w w' →
    w'.known (w'.project.userKey, id) = w.known (w.project.userKey, id)
  remember : ∀ {w w'} (e : (String × String) × List String), V w w' →
    V { w with remembered := e :: w.remembered } { w' with remembered := e :: w'.remembered }

theorem Frame.userKey [Frame V] {w w' : Workspace} (hw : V w w') :
    w'.project.userKey = w.project.userKey :=
  congrArg (fun p => Setting.userKey p.toSetting) (Frame.seen hw)

theorem mergedGraph_follows [Pane V] (hsm : ∀ {w w'}, V w w' → w'.merged = w.merged)
    (hkp : ∀ {w w'} (g : MergedGraph) (left : List Choice), V w w' →
      V { w with merged := some g, dated := left ++ w.dated }
        { w' with merged := some g, dated := left ++ w'.dated }) (m : Model) :
    Follows V Eq (mergedGraph m) := by
  refine Pane.joinGraph.bind fun g => .get_bind (fun w w' hw => ?_) fun w w' hw => ?_
  · rw [hsm hw, Frame.seen hw, Frame.userKey hw]
  · cases w.merged with
    | some merged => exact .of_pure _
    | none =>
      exact .result_bind fun merged =>
        (Follows.of_modify (fun _ _ hw => hkp merged _ hw) fun _ => rfl).bind fun _ => .of_pure _

theorem derivedGraphs_follows [Pane V] (hmg : ∀ {p : Store} {m : Model}, Shows V p →
    f.view.model p = .ok (some m) → Follows V Eq (mergedGraph m)) :
    Follows V Eq (derivedGraphs f) := by
  refine .project_bind fun p hp => .result_bind_of fun m hm => ?_
  cases m with
  | none => exact .of_throw _
  | some m =>
    exact Pane.joinGraph.bind fun g => .result_bind fun cumulative => .ite (.of_pure _) <|
      (hmg hp hm).bind fun merged => .result_bind fun isMerged =>
        .ite (.of_pure _) (.of_pure _)

section

variable [Remembers V] {p : Store}

theorem joinGraphs_follows (hp : Shows V p) (hf : p.seen.Finds f) :
    Follows V Eq (joinGraphs f) := by
  rw [joinGraphs_eq]
  refine .get_bind (fun w w' hw => ?_) fun w w' hw => ?_
  · rw [Remembers.sameMemory f.id hw, Frame.userKey hw]
  · cases w.known (w.project.userKey, f.id) with
    | some found => exact .of_pure _
    | none =>
      exact (derivedGraphs_follows (Remembers.mergedGraph hp hf)).bind fun found =>
        (Follows.of_modify (fun _ _ hw => Remembers.remember _ hw) fun _ => rfl).bind fun _ =>
          .of_pure _

instance (priority := low) : Glass V where
  tellsOf := joinGraphs_follows

end

/-- Related workspaces keep the same graphs, and stay related when more of them are kept. -/
class Kept (V : Workspace → Workspace → Prop) : Prop extends Holds V where
  sameGraph : ∀ {w w'}, V w w' → w'.joinGraph = w.joinGraph
  sameMerged : ∀ {w w'}, V w w' → w'.merged = w.merged
  sameMemory : ∀ {w w'}, V w w' → w'.remembered = w.remembered
  keepGraph : ∀ {w w'} (g : JoinGraph.Built), V w w' →
    V { w with joinGraph := some g } { w' with joinGraph := some g }
  keepMerged : ∀ {w w'} (g : MergedGraph) (left : List Choice), V w w' →
    V { w with merged := some g, dated := left ++ w.dated }
      { w' with merged := some g, dated := left ++ w'.dated }
  remember : ∀ {w w'} (e : (String × String) × List String), V w w' →
    V { w with remembered := e :: w.remembered } { w' with remembered := e :: w'.remembered }

theorem joinGraph_follows [Frame V] (hsm : ∀ {w w'}, V w w' → w'.joinGraph = w.joinGraph)
    (hkp : ∀ {w w'} (g : JoinGraph.Built), V w w' →
      V { w with joinGraph := some g } { w' with joinGraph := some g }) :
    Follows V Eq joinGraph := by
  refine .get_bind (fun w w' hw => ?_) fun w w' hw => ?_
  · have hvs : w'.project.listViews = w.project.listViews :=
      congrArg Project.listViews (Frame.seen hw)
    rw [hsm hw, hvs]
  · cases w.joinGraph with
    | some g => exact .of_pure _
    | none =>
      exact .result_bind fun views => .result_bind fun g =>
        (Follows.of_modify (fun _ _ hw => hkp g hw) fun _ => rfl).bind fun _ => .of_pure _

section

variable [Kept V]

instance (priority := low) : Pane V where
  tells := joinGraph_follows Kept.sameGraph Kept.keepGraph

instance (priority := low) : Remembers V where
  mergedGraph _ _ _ _ := mergedGraph_follows Kept.sameMerged Kept.keepMerged _
  sameMemory id hw := by rw [Workspace.known, Kept.sameMemory hw, Frame.userKey hw, Workspace.known]
  remember := Kept.remember

instance (priority := low) : Veil V where
  tellsOf := Glass.tellsOf

end

/-! ### A workspace by itself -/

end Action

/-- A workspace by itself: its project is of a kind, and the chosen timeframes are given. -/
def Workspace.Alone (J : Store → Prop) (chosen : List Choice) (w w' : Workspace) : Prop :=
  w' = w ∧ J w.project ∧ w.chosen = chosen

namespace Action

variable {J : Store → Prop} {chosen : List Choice} {V : Workspace → Workspace → Prop}
  {S : Store → Store → Prop} {α : Type}

instance : Kept (Workspace.Alone J chosen) where
  seen h := by rw [h.1]
  writeRequest _ h := ⟨by rw [h.1], h.2⟩
  rows h := by rw [h.1]
  groups h := by rw [h.1]
  writeRows _ h := ⟨by rw [h.1], h.2⟩
  writeGroups _ h _ _ := ⟨by rw [h.1], h.2⟩
  sameGraph h := by rw [h.1]
  sameMerged h := by rw [h.1]
  sameMemory h := by rw [h.1]
  keepGraph _ h := ⟨by rw [h.1], h.2⟩
  keepMerged _ _ h := ⟨by rw [h.1], h.2⟩
  remember _ h := ⟨by rw [h.1], h.2⟩

/-- On a project of the kind the action leaves one of that kind and the chosen timeframes; if it
succeeds, the project is related to the one before. -/
theorem Follows.alone {a : Action α} {w : Workspace}
    (ha : Follows (Workspace.Alone J w.chosen) S a) (hw : J w.project) :
    J (a w).2.project ∧ (a w).2.chosen = w.chosen ∧
      ∀ x, (a w).1 = .ok x → S w.project (a w).2.project := by
  obtain ⟨-, ⟨-, hJ, hch⟩, hS⟩ := ha w w ⟨rfl, hw, rfl⟩
  exact ⟨hJ, hch, hS⟩

theorem Follows.of_outcome [IsPreorder Store S] {a : Action α} (ha : Follows V Store.Any a)
    (halone : ∀ p chosen, Follows (Workspace.Alone (· = p) chosen) Store.Any a) :
    Follows V S (outcome a) := by
  intro w w' hw
  obtain ⟨heq, hV, -⟩ := ha w w' hw
  have hpr := ((halone w.project w.chosen).alone rfl).1
  refine ⟨congrArg Except.ok heq, hV, fun _ _ => ?_⟩
  change S w.project (a w).2.project
  rw [hpr]
  exact refl_of S w.project

end Action

/-! ### Ways of a workspace -/

/-- A workspace by itself, to which a way leads from another one. -/
def Workspace.From (R : Workspace → Workspace → Prop) (w₀ w w' : Workspace) : Prop :=
  w' = w ∧ R w₀ w

namespace Action

variable {J : Store → Prop} {V R : Workspace → Workspace → Prop} {S : Store → Store → Prop}
  {α : Type} {a : Action α} {w₀ : Workspace}

/-- Looking up join graphs is a way that a workspace may go. -/
class Grows (R : Workspace → Workspace → Prop) : Prop extends IsPreorder Workspace R where
  joinGraph : Moves R joinGraph
  joinGraphs : ∀ f, Moves R (joinGraphs f)

section

variable [IsPreorder Workspace R]

theorem Follows.of_moves (ha : Moves R a) : Follows (Workspace.From R w₀) Store.Any a := by
  rintro _ w ⟨rfl, h⟩
  exact ⟨rfl, ⟨rfl, trans_of R h (ha w)⟩, fun _ _ => trivial⟩

theorem Follows.way {w w' : Workspace} {r : Result α}
    (ha : Follows (Workspace.From R w) Store.Any a) (h : a w = (r, w')) : R w w' := by
  have hway := (ha w w ⟨rfl, refl_of R w⟩).2.1.2
  rwa [h] at hway

end

instance : Carries (Workspace.From R w₀) where
  seen h := by rw [h.1]
  rows h := by rw [h.1]
  groups h := by rw [h.1]

instance [Grows R] : Glass (Workspace.From R w₀) where
  tells w w' h := by
    obtain ⟨heq, hway, -⟩ := Follows.of_moves (R := R) Grows.joinGraph w w' h
    exact ⟨heq, hway, fun _ _ => (joinGraph_builds w).keeps.project.symm⟩
  tellsOf _ _ w w' h := by
    obtain ⟨heq, hway, -⟩ := Follows.of_moves (R := R) (Grows.joinGraphs _) w w' h
    exact ⟨heq, hway, fun _ _ => ((joinGraphs_settles _).moves w).project.symm⟩

instance : Grows Workspace.Extends where
  joinGraph w := (joinGraph_builds w).keeps.extends
  joinGraphs f := (joinGraphs_settles f).moves

/-! ### Lookups -/

variable [Glass V] [IsPreorder Store S] {p : Store}

theorem components_follows (hp : Shows V p) (hf : p.seen.Finds f) : Follows V S (components f) :=
  (Glass.joinGraphs hp hf).bind fun _ => .of_pure _

theorem fieldMappings_follows (m : Model) (dimensionsOnly : Bool) :
    Follows V S (fieldMappings m dimensionsOnly) :=
  (Pane.joinGraph.of_outcome fun _ _ => Pane.joinGraph).bind fun _ => .project_bind fun _ _ =>
    .of_result _

theorem fieldByTag_follows (tag : String) (view : Option String) (graphs : List String)
    (asked : Option Model) : Follows V S (fieldByTag tag view graphs asked) := by
  refine .project_bind fun p hp => .result_bind_of fun tagged htagged => ?_
  have hfil : Follows V S (tagged.filterM fun f => do
      let own ← joinGraphs f
      return graphs.any own.contains) := by
    refine .filterM fun f hf => (Glass.joinGraphs hp ?_).bind fun _ => .of_pure _
    obtain ⟨options, -, htagged⟩ := Result.of_bind htagged
    obtain ⟨all, hall, htagged⟩ := Result.of_bind htagged
    exact .listed hall (Result.filterM_subset htagged hf)
  exact .ite ((Follows.of_pure _).bind fun _ => .of_result _)
    (hfil.bind fun _ => .of_result _)

end Action

end SemanticLayer
