import SemanticLayer.Proofs.Query.Frame

/-!
# Lookups and what came before them

Fields and metrics are found as on the first call, whatever was looked up and compiled before.
Dimensions are not: a dimension group keeps the timeframe it was looked up with
(`Cash.raw_not_found`). The definitions are kept by all lookups, by all queries of additive
projects, and by single queries of projects in which nothing is left of what windows lend.
-/

namespace SemanticLayer

open SemanticLayer.Action List Store
open Result (Related)

variable {choices : List Choice} {f : Field} {group : Value} {name : String} {view : Option String}

/-! ### Dimensions and metrics -/

def Field.isDimension (f : Field) : Bool :=
  f.isGroup || (f.property "field_type").isTextOf "dimension"

theorem Field.Like.isDimension {f' : Field} (h : f.Like f') : f'.isDimension = f.isDimension := by
  unfold Field.isDimension
  rw [h.isGroup, h.property (by decide)]

namespace Store

/-- The visible dimension that a name means, where timeframes were chosen before. -/
def dimension (p : Store) (choices : List Choice) (name : String) (view : Option String) :
    Result Field := do
  let listed ← p.seen.fields view false false none
  let dimensions := withChoices choices p.userKey view (listed.filter Field.isDimension)
  match ← dimensions.findSomeM? fun f => f.matching? name with
  | some f => .ok f
  | none => malformed .noMatch

def metric (p : Store) (name : String) (view : Option String) : Result Field := do
  let listed ← p.seen.fields view false false none
  match ← (listed.filter Field.isMeasure).findSomeM? fun f => f.matching? name with
  | some f => .ok f
  | none => malformed .noMatch

end Store

/-- The timeframe of a field that was found stays chosen in the list of a view. -/
def Workspace.keepChoice (w : Workspace) (view : Option String) (f : Field) : Workspace :=
  match f.chosen with
  | some group => { w with chosen := ⟨w.project.userKey, view, f.key, group⟩ :: w.chosen }
  | none => w

namespace Action

theorem visibleMeasure_apply (name : String) (view : Option String) (w : Workspace) :
    visibleMeasure name view w = (w.project.metric name view, w) := by
  unfold visibleMeasure metric
  rw [bind_of_eq_ok (show project w = (.ok w.project.seen, w) from rfl)]
  cases hls : w.project.seen.fields view false false none with
  | error e => exact bind_of_eq_error (lift_apply _ _)
  | ok listed =>
    rw [bind_of_eq_ok (lift_apply _ _), Result.ok_bind]
    have hfi := findSomeM?_lift (fun f => f.matching? name) (listed.filter Field.isMeasure) w
    cases hfd : (listed.filter Field.isMeasure).findSomeM? fun f => f.matching? name with
    | error e => exact bind_of_eq_error (hfi.trans (by rw [hfd]))
    | ok found =>
      rw [bind_of_eq_ok (hfi.trans (by rw [hfd]))]
      cases found with
      | some f => rfl
      | none => exact lift_apply _ _

theorem visibleDimension_apply (name : String) (view : Option String) (w : Workspace) :
    visibleDimension name view w = match w.project.dimension w.chosen name view with
      | .error e => (.error e, w)
      | .ok f => (.ok f, w.keepChoice view f) := by
  unfold visibleDimension dimension
  rw [get_bind]
  dsimp only
  cases hls : w.project.seen.fields view false false none with
  | error e => exact bind_of_eq_error (lift_apply _ _)
  | ok listed =>
    rw [bind_of_eq_ok (lift_apply _ _), Result.ok_bind]
    have hkp : (fun f : Field => f.isGroup || (f.property "field_type").isTextOf "dimension")
        = Field.isDimension := rfl
    rw [hkp]
    generalize withChoices w.chosen w.project.userKey view (listed.filter Field.isDimension)
      = dimensions
    have hfi := findSomeM?_lift (fun f => f.matching? name) dimensions w
    cases hfd : dimensions.findSomeM? fun f => f.matching? name with
    | error e => exact bind_of_eq_error (hfi.trans (by rw [hfd]))
    | ok found =>
      rw [bind_of_eq_ok (hfi.trans (by rw [hfd])), Result.ok_bind]
      cases found with
      | none => exact lift_apply _ _
      | some f =>
        dsimp only
        unfold Workspace.keepChoice
        cases f.chosen with
        | none => rfl
        | some group => rfl

theorem withChoices_of_elsewhere
    (h : ∀ c ∈ choices, c.view ≠ view) (user : String) (fields : List Field) :
    withChoices choices user view fields = fields := by
  have hno : ∀ key, choices.find? (fun c => c.user == user && c.view == view && c.field == key)
      = none := by
    intro key
    rw [List.find?_eq_none]
    intro c hc
    simp [h c hc]
  unfold withChoices
  simp only [hno]
  exact map_id _

theorem withChoices_like (choices : List Choice) (user : String) (view : Option String)
    {fields fields' : List Field} (h : List.Forall₂ Field.Like fields fields') :
    List.Forall₂ Field.Like (withChoices choices user view fields)
      (withChoices choices user view fields') := by
  refine rel_map (fun f f' hf => ?_) h
  rw [hf.key]
  split
  · exact hf.choose _
  · exact hf

end Action

namespace Store

variable {p q : Store}

section

variable (h : q.definitions = p.definitions)
include h

theorem metric_like (name : String) (view : Option String) :
    Related Field.Like (p.metric name view) (q.metric name view) := by
  refine (fields_like h view false false none).bind fun listed listed' hls => ?_
  have hmeasures := Field.Like.filter (fun _ _ hf => hf.isMeasure) hls
  refine (Related.findSomeM? hmeasures fun f f' hf => hf.matching name).bind
    fun found found' hf => ?_
  cases hf with
  | none => exact .error _
  | some hf => exact .ok hf

theorem dimension_like (choices : List Choice) (name : String) (view : Option String) :
    Related Field.Like (p.dimension choices name view) (q.dimension choices name view) := by
  unfold dimension
  rw [userKey_like h]
  refine (fields_like h view false false none).bind fun listed listed' hls => ?_
  have hdim := Field.Like.filter (fun _ _ hf => hf.isDimension) hls
  refine (Related.findSomeM? (withChoices_like choices _ view hdim)
    fun f f' hf => hf.matching name).bind fun found found' hf => ?_
  cases hf with
  | none => exact .error _
  | some hf => exact .ok hf

end

theorem dimension_of_elsewhere (h : ∀ c ∈ choices, c.view ≠ view) (name : String) :
    p.dimension choices name view = p.dimension [] name view := by
  unfold dimension
  simp only [withChoices_of_elsewhere h, withChoices_of_elsewhere (forall_mem_nil _)]

def chosenIn (p : Store) (choices : List Choice) (view : Option String) (key : String) :
    Option Value :=
  (choices.find? fun c => c.user == p.userKey && c.view == view && c.field == key).map (·.group)

theorem dimension_eq_ok (h : p.dimension choices name view = .ok f) : ∃ g : Field, g.chosen = none ∧
      Field.matching? { g with chosen := p.chosenIn choices view g.key } name = .ok (some f) := by
  obtain ⟨listed, hls, h⟩ := Result.of_bind h
  obtain ⟨found, hfd, h⟩ := Result.of_bind h
  cases found with
  | none => cases h
  | some f' =>
    cases h
    obtain ⟨f1, hf1, hmt⟩ := Result.exists_of_findSomeM? hfd
    obtain ⟨g, hg, rfl⟩ := mem_map.mp hf1
    have hch := chosen_of_fields hls (mem_filter.mp hg).1
    refine ⟨g, hch, ?_⟩
    unfold chosenIn
    split at hmt
    · next c hc =>
      rw [hc]
      exact hmt
    · next hc =>
      rw [hc, Option.map_none, ← hch]
      exact hmt

theorem isNull_of_dimension (h : p.dimension choices name view = .ok f)
    (hchoices : ∀ c ∈ choices, c.group.isNull = false)
    (hgr : f.chosen = some group) : group.isNull = false := by
  obtain ⟨g, -, hmt⟩ := dimension_eq_ok h
  obtain ⟨rfl, -, -⟩ | ⟨-, names, hns, hmem, rfl⟩ := Field.matching?_eq_some hmt
  · obtain ⟨c, hc, rfl⟩ := Option.map_eq_some_iff.mp hgr
    exact hchoices c (List.mem_of_find?_eq_some hc)
  · cases hgr
    exact Field.groupOfName_isNull hns hmem

theorem chosen_of_dimension (h : p.dimension choices name view = .ok f)
    (hchoice : p.chosenIn choices view f.key = some group) (hgr : group.isNull = false) :
    f.chosen = some group := by
  obtain ⟨g, -, hmt⟩ := dimension_eq_ok h
  obtain ⟨rfl, -, -⟩ | ⟨hnl, names, hns, hmem, rfl⟩ := Field.matching?_eq_some hmt
  · exact hchoice
  · have hkey : p.chosenIn choices view g.key = some group := hchoice
    rw [hkey] at hnl
    exact absurd (hnl.symm.trans hgr) (by decide)

/-! ### Steps that keep the definitions -/

theorem setting_steps (setting : Setting) :
    Steps (fun q => { q.toSetting with schema := .null } = setting) Store.Any
      (fun _ => True) where
  setAlways _ _ h := ⟨h, trivial⟩
  schema _ h := ⟨h, trivial⟩
  windows _ _ _ _ := trivial
  collect _ _ _ _ h := ⟨h, trivial⟩
  lend _ _ _ h hadd := by
    obtain rfl | ⟨_, _, _, -, -, rfl⟩ := addField_cases hadd
    · exact h
    · exact h
  takeBack _ h hrem := by
    obtain ⟨_, _, _, -, -, rfl⟩ := removeField_eq_ok hrem
    exact h
  settle _ _ _ _ _ _ _ := trivial

theorem IsAdditive.setAlways (h : p.IsAdditive) (i : Nat) (always : Value) :
    (p.setAlways i always).IsAdditive := by
  intro s hs d hd
  obtain hs | rfl := mem_or_eq_of_mem_set hs
  · exact h s hs d hd
  · exact h.of_fieldsOn hd

theorem additive_steps (p : Store) :
    Steps (fun q => q.IsAdditive ∧ q.definitions = p.definitions) Store.Any (fun _ => False) where
  setAlways i always h :=
    ⟨⟨h.1.setAlways i always, (definitions_setAlways _ i always).trans h.2⟩, trivial⟩
  schema _ h := ⟨h, trivial⟩
  windows h hrd win hwin := by
    rw [Selection.readWindows_eq_nil (h.1.allAdditive _ _) hrd] at hwin
    cases hwin
  collect _ _ _ hm _ := hm.elim
  lend hm _ _ _ _ := hm.elim
  takeBack hm _ _ := hm.elim
  settle hm _ _ _ _ _ _ := hm.elim

end Store

/-! ### Calls -/

/-- What a field is looked up among: all fields, the visible dimensions or the visible metrics. -/
inductive Lookup where
  | field
  | dimension
  | metric
  deriving DecidableEq, Repr

/-- What can be asked of a session without editing its project. -/
inductive Call where
  | lookup (kind : Lookup) (name : String) (view : Option String)
  | compile (r : Request)
  | convert (sql : String) (options : Definition)

namespace Session

def look (kind : Lookup) (name : String) (view : Option String) (s : Session) :
    Result Field × Session :=
  match kind with
  | .field => (s.field name view, s)
  | .dimension => s.perform (visibleDimension name view)
  | .metric => s.perform (visibleMeasure name view)

/-- What a lookup shows: an id and a timeframe. -/
def answer (kind : Lookup) (name : String) (view : Option String) (s : Session) :
    Result (String × Value) :=
  (s.look kind name view).1.map fun f => (f.id, f.group)

def after (s : Session) : Call → Session
  | .lookup kind name view => (s.look kind name view).2
  | .compile r => (s.compile r).2
  | .convert sql options => (s.convert sql options).2

def afterAll (s : Session) (calls : List Call) : Session := calls.foldl after s

/-- No dimension that was looked up in a list got a timeframe by its name. -/
def ChoosesNone (s : Session) (calls : List Call) (view : Option String) : Prop :=
  ∀ before name behind f, calls = before ++ .lookup .dimension name view :: behind →
    ((s.afterAll before).look .dimension name view).1 = .ok f → f.chosen = none

variable {s t : Session}

section

variable (kind : Lookup) (name : String) (view : Option String) (s : Session)

theorem look_metric : s.look .metric name view = (s.store.metric name view, s) := by
  unfold look
  dsimp only
  rw [perform_apply, visibleMeasure_apply]
  rfl

theorem look_dimension :
    s.look .dimension name view = match s.store.dimension s.workspace.chosen name view with
      | .error e => (.error e, s)
      | .ok f => (.ok f, { s with workspace := s.workspace.keepChoice view f }) := by
  unfold look
  rw [perform_apply, visibleDimension_apply]
  unfold store
  cases s.workspace.project.dimension s.workspace.chosen name view with
  | error e => rfl
  | ok f => rfl

theorem fst_look_dimension :
    (s.look .dimension name view).1 = s.store.dimension s.workspace.chosen name view := by
  rw [look_dimension]
  cases s.store.dimension s.workspace.chosen name view with
  | error e => rfl
  | ok f => rfl

theorem after_lookup : s.after (.lookup kind name view) = (s.look kind name view).2 := rfl

theorem chosen_after (call : Call) : (s.after call).workspace.chosen = s.workspace.chosen ∨
    ∃ name view f group, call = .lookup .dimension name view ∧
      s.store.dimension s.workspace.chosen name view = .ok f ∧ f.chosen = some group ∧
      (s.after call).workspace.chosen
        = ⟨s.store.userKey, view, f.key, group⟩ :: s.workspace.chosen := by
  cases call with
  | compile r => exact .inl (compile_keeps (setting_steps _) rfl r).2
  | convert sql options => exact .inl (convert_keeps (setting_steps _) rfl sql options).2
  | lookup kind name view =>
    cases kind with
    | field => exact .inl rfl
    | metric =>
      rw [after_lookup, look_metric]
      exact .inl rfl
    | dimension =>
      rw [after_lookup, look_dimension]
      cases hf : s.store.dimension s.workspace.chosen name view with
      | error e => exact .inl rfl
      | ok f =>
        dsimp only
        unfold Workspace.keepChoice
        cases hgr : f.chosen with
        | none => exact .inl rfl
        | some group => exact .inr ⟨name, view, f, group, rfl, hf, hgr, rfl⟩

theorem store_look : (s.look kind name view).2.store = s.store := by
  cases kind with
  | field => rfl
  | metric => rw [look_metric]
  | dimension =>
    rw [look_dimension]
    cases s.store.dimension s.workspace.chosen name view with
    | error e => rfl
    | ok f =>
      dsimp only [store]
      unfold Workspace.keepChoice
      split
      · rfl
      · rfl

end

theorem after_keeps {J : Store → Prop} {K : Definition → Prop} (hs : Steps J Store.Any K)
    (h : J s.store) (call : Call) : J (s.after call).store := by
  cases call with
  | lookup kind name view =>
    rw [after_lookup, store_look]
    exact h
  | compile r => exact (compile_keeps hs h r).1
  | convert sql options => exact (convert_keeps hs h sql options).1

theorem afterAll_induct {P : Session → Prop} (hs : ∀ s call, P s → P (s.after call))
    (calls : List Call) (h : P s) : P (s.afterAll calls) := by
  induction calls generalizing s with
  | nil => exact h
  | cons call calls ih => exact ih (hs s call h)

theorem userKey_after (s : Session) (call : Call) :
    (s.after call).store.userKey = s.store.userKey := by
  have hsetting := after_keeps (setting_steps { s.store.toSetting with schema := .null })
    (s := s) rfl call
  have hsm := congrArg Setting.userKey hsetting
  exact hsm

/-! ### Lookups of a history -/

/-- **Lookups hang on the definitions**: fields and metrics on nothing else, dimensions also on the
timeframes that were chosen. -/
theorem look_like (h : t.store.definitions = s.store.definitions) (kind : Lookup) (name : String)
    (view : Option String) (hch : kind = .dimension → t.store.dimension t.workspace.chosen name view
        = t.store.dimension s.workspace.chosen name view) :
    Related Field.Like (s.look kind name view).1 (t.look kind name view).1 := by
  cases kind with
  | field =>
    change Related Field.Like (s.field name view) (t.field name view)
    unfold field
    have hmodels : t.project.listModels = s.project.listModels := listModels_like h
    rw [hmodels]
    refine (Related.of_eq rfl).bind fun models models' heq => ?_
    subst heq
    split
    · exact getField_like h name view _
    · exact getField_like h name view _
  | metric =>
    rw [look_metric, look_metric]
    exact metric_like h name view
  | dimension =>
    rw [fst_look_dimension, fst_look_dimension, hch rfl]
    exact dimension_like h _ name view

theorem elsewhere_afterAll {calls : List Call}
    (h : ∀ c ∈ s.workspace.chosen, c.view ≠ view) (hno : s.ChoosesNone calls view) :
    ∀ c ∈ (s.afterAll calls).workspace.chosen, c.view ≠ view := by
  induction calls generalizing s with
  | nil => exact h
  | cons call calls ih =>
    refine ih ?_ fun before name behind f hsp hf =>
      hno (call :: before) name behind f (congrArg (call :: ·) hsp) hf
    obtain hsm | ⟨name, view', f, group, rfl, hf, hgr, hnew⟩ := chosen_after s call
    · rw [hsm]
      exact h
    · rw [hnew, forall_mem_cons]
      refine ⟨?_, h⟩
      rintro rfl
      have hch := hno [] name calls f rfl (by rw [fst_look_dimension]; exact hf)
      rw [hch] at hgr
      cases hgr

/-- A timeframe that was chosen on a field of a list. -/
def HasChosen (s : Session) (view : Option String) (key : String) (group : Value) : Prop :=
  s.store.chosenIn s.workspace.chosen view key = some group

/-- **The first choice stays**: no call changes it. -/
theorem HasChosen.after {key : String}
    (hgr : group.isNull = false) (h : s.HasChosen view key group) (call : Call) :
    (s.after call).HasChosen view key group := by
  have huser := userKey_after s call
  unfold HasChosen chosenIn at h ⊢
  rw [huser]
  obtain hsm | ⟨name, view', f, group', rfl, hf, hch, hnew⟩ := chosen_after s call
  · rw [hsm]
    exact h
  · rw [hnew, List.find?_cons]
    split
    · next hhead =>
      simp only [Bool.and_eq_true, beq_iff_eq] at hhead
      obtain ⟨⟨-, rfl⟩, rfl⟩ := hhead
      -- The same field was found: it already had the timeframe.
      have hsm := chosen_of_dimension hf h hgr
      rw [hch] at hsm
      exact hsm
    · exact h

theorem HasChosen.of_look
    (h : (s.look .dimension name view).1 = .ok f) (hgr : f.chosen = some group) :
    (s.after (.lookup .dimension name view)).HasChosen view f.key group := by
  rw [fst_look_dimension] at h
  unfold HasChosen
  rw [after_lookup, look_dimension, h]
  dsimp only
  unfold Workspace.keepChoice
  rw [hgr]
  unfold chosenIn
  rw [List.find?_cons_of_pos]
  · rfl
  · simp [store]

theorem named_afterAll (h : ∀ c ∈ s.workspace.chosen, c.group.isNull = false)
    (calls : List Call) : ∀ c ∈ (s.afterAll calls).workspace.chosen, c.group.isNull = false := by
  refine afterAll_induct (P := fun s => ∀ c ∈ s.workspace.chosen, c.group.isNull = false)
    (fun s call h => ?_) calls h
  obtain hsm | ⟨name, view, f, group, rfl, hf, hgr, hnew⟩ := chosen_after s call
  · rw [hsm]
    exact h
  · rw [hnew, forall_mem_cons]
    exact ⟨isNull_of_dimension hf h hgr, h⟩

theorem afterAll_append (s : Session) (calls more : List Call) :
    s.afterAll (calls ++ more) = (s.afterAll calls).afterAll more := foldl_append

/-- **Lookups and what came before them.**  After any calls that left the definitions as they were,
a lookup shows what it shows at first: always for fields and metrics, and for dimensions unless one
of the same list was found by a timeframe before.  The definitions are kept by all calls on additive
projects, and by single queries of projects in which nothing is left of what windows lend. -/
theorem answer_afterAll (hfresh : s.workspace.chosen = []) :
    (∀ calls, (s.afterAll calls).store.definitions = s.store.definitions →
      ∀ kind name view, (kind = .dimension → s.ChoosesNone calls view) →
        (s.afterAll calls).answer kind name view = s.answer kind name view) ∧
    (∀ before name view behind f group,
      ((s.afterAll before).look .dimension name view).1 = .ok f → f.chosen = some group →
        ∀ name' f', ((s.afterAll (before ++ .lookup .dimension name view :: behind)).look
          .dimension name' view).1 = .ok f' → f'.key = f.key → f'.group = group) ∧
    (s.store.IsAdditive → ∀ calls, (s.afterAll calls).store.definitions = s.store.definitions) ∧
    (s.store.IsLendable → s.store.IsComplete → ∀ r c s', s.compile r = (.ok c, s') →
      c.kind = .single → s'.store.definitions = s.store.definitions ∧ s'.store.IsLendable ∧
        s'.store.IsComplete) ∧
    (∀ calls, (s.afterAll calls).store.NamesFrames → ∀ view name f, '.' ∉ view.toList →
      '.' ∉ name.toList → (s.afterAll calls).field (view ++ "." ++ name) none = .ok f →
        f.id = view ++ "." ++ Text.lower name) := by
  refine ⟨fun calls hsame kind name view hnone => ?_,
    fun before name view behind f group hf hgroup name' f' hf' hkey => ?_,
    fun hadditive calls => ?_, fun hlendable hcomplete r c s' hrun hkind => ?_,
    fun calls hframes view name f hview hname hf => ?_⟩
  · have hlike := look_like hsame kind name view fun hkind => by
      have helsewhere := elsewhere_afterAll (s := s) (by simp [hfresh]) (hnone hkind)
      rw [hfresh, Store.dimension_of_elsewhere helsewhere]
    exact (hlike.map_eq fun f f' hf => by rw [hf.id, hf.group]).symm
  · have hnamed := named_afterAll (s := s) (by simp [hfresh]) before
    have hnull := Store.isNull_of_dimension (by rwa [← fst_look_dimension]) hnamed hgroup
    rw [afterAll_append] at hf'
    have hchosen : ((s.afterAll before).afterAll (.lookup .dimension name view :: behind)).HasChosen
        view f.key group :=
      afterAll_induct (P := fun s => s.HasChosen view f.key group)
        (fun _ call h => h.after hnull call) behind (.of_look hf hgroup)
    rw [fst_look_dimension] at hf'
    have hsame := Store.chosen_of_dimension hf' (by rw [hkey]; exact hchosen) hnull
    rw [Field.group, hsame]
    rfl
  · exact (afterAll_induct (P := fun t =>
      t.store.IsAdditive ∧ t.store.definitions = s.store.definitions)
      (fun t call h => after_keeps (Store.additive_steps s.store) h call) calls ⟨hadditive, rfl⟩).2
  · obtain ⟨hlendable', hsame⟩ := compile_settled hlendable hrun hkind
    have hcomplete' := hcomplete.congr hsame
    exact ⟨by rw [hcomplete'.definitions, hsame, hcomplete.definitions], hlendable', hcomplete'⟩
  · obtain ⟨models, -, hf⟩ := Result.of_bind hf
    split at hf
    · exact Store.id_of_getField hframes hview hname hf
    · exact Store.id_of_getField hframes hview hname hf

end Session

/-! ### Cash

The list of all dimensions has the dates of cash, after the first lookup under one timeframe
only. -/

namespace Cash

def calls : List Call :=
  [.lookup .dimension "cash.at_date" none, .lookup .metric "cash.spent" none,
   .compile (request "cash.spent")]

theorem isAdditive_session : (session [spent]).store.IsAdditive := by
  intro s hs d hd
  cases mem_singleton.mp hs
  rcases mem_cons.mp hd with rfl | hd
  · rfl
  · cases mem_singleton.mp hd
    rfl

theorem namesFrames_session : (session [spent]).store.NamesFrames := by
  intro s hs d hd ts hts
  cases mem_singleton.mp hs
  rcases mem_cons.mp hd with rfl | hd
  · cases hts
    simp
  · cases mem_singleton.mp hd
    cases hts

theorem isComplete_held : (session [held]).store.IsComplete := by
  intro e he i hi d hd
  cases mem_singleton.mp he
  cases hi
  rcases mem_cons.mp hd with rfl | hd
  · rfl
  · cases mem_singleton.mp hd
    rfl

theorem choosesNone_calls : (session [spent]).ChoosesNone calls (some "cash") := by
  intro before name behind f hsp _
  have hmem : Call.lookup .dimension name (some "cash") ∈ calls := by rw [hsp]; simp
  simp [calls] at hmem

end Cash

open Cash in
theorem Session.answer_afterAll_cash :
    ((session [spent]).afterAll calls).answer .field "cash.at_raw" none
      = .ok ("cash.at_raw", .text "raw") ∧
    ((session [spent]).afterAll calls).answer .dimension "at_raw" (some "cash")
      = .ok ("cash.at_raw", .text "raw") ∧
    (∀ name f, (((session [spent]).afterAll calls).look .dimension name none).1 = .ok f →
      f.key = "cash.at" → f.group = .text "date") ∧
    ((session [held]).compile (request "cash.held")).2.store.definitions
      = (session [held]).store.definitions ∧
    ∃ f, (session [spent]).field ("cash" ++ "." ++ "AT_RAW") none = .ok f ∧
      f.id = "cash.at_raw" := by
  obtain ⟨hanswer, hstays, hkept, -, hid⟩ := answer_afterAll (s := session [spent]) rfl
  have hsame := hkept isAdditive_session calls
  refine ⟨?_, ?_, fun name f hf hkey => ?_, ?_, ?_⟩
  · rw [hanswer calls hsame .field _ _ (fun h => nomatch h)]
    rfl
  · rw [hanswer calls hsame .dimension _ _ fun _ => choosesNone_calls]
    rfl
  · have hfirst : ((session [spent]).look .dimension "cash.at_date" none).1.toOption.any
        (fun f => f.key == "cash.at" && f.chosen.any (·.isTextOf "date")) = true := by
      decide +kernel
    rcases hrun : ((session [spent]).look .dimension "cash.at_date" none).1 with e | g
    · rw [hrun] at hfirst
      cases hfirst
    · rw [hrun] at hfirst
      obtain ⟨hg, hany⟩ : g.key = "cash.at" ∧ g.chosen.any (·.isTextOf "date") = true := by
        simpa [Except.toOption] using hfirst
      have hdate : g.chosen = some (.text "date") := by
        cases hchosen : g.chosen with
        | none =>
          rw [hchosen] at hany
          cases hany
        | some group =>
          rw [hchosen] at hany
          rw [Value.isTextOf_iff.mp hany]
      exact hstays [] "cash.at_date" none _ g _ hrun hdate name f hf (hkey.trans hg.symm)
  · obtain ⟨c, s', hrun, hsingle⟩ := compile_held
    rw [hrun]
    exact ((answer_afterAll (s := session [held]) rfl).2.2.2.1 isLendable_held isComplete_held _ c
      s' hrun hsingle).1
  · rcases hrun : (session [spent]).field ("cash" ++ "." ++ "AT_RAW") none with e | f
    · have hok : ((session [spent]).field ("cash" ++ "." ++ "AT_RAW") none).isOk = true := by
        decide +kernel
      rw [hrun] at hok
      cases hok
    · refine ⟨f, rfl, (hid [] namesFrames_session "cash" "AT_RAW" f ?_ ?_ hrun).trans ?_⟩
      · decide +kernel
      · decide +kernel
      · decide +kernel

/-- A timeframe that is found at first is not found any more after another one was looked up. -/
theorem Cash.raw_not_found :
    (session [spent]).answer .dimension "cash.at_raw" none = .ok ("cash.at_raw", .text "raw") ∧
    ((session [spent]).after (.lookup .dimension "cash.at_date" none)).answer .dimension
      "cash.at_raw" none = malformed .noMatch := ⟨rfl, rfl⟩

end SemanticLayer
